import EventCore.Replicas

/-! When one reconciliation closes every fork. All merges of a pass are written by one replica,
each on top of its own fork only, so two of them are never comparable. -/
namespace EventCore
namespace FileStore
open GraphSearch

variable {Any Raw Value E ι : Type}

/-- There is nothing to close, or a single fork such that everything the replica itself wrote
lies below the fork, and no stream that the resolution writes to has its current head recorded as a base. -/
def Closable (form : ValueForm Value E) (resolver : ForkContext E → ResolutionOutcome E)
    (store : FileEventStore Value) : Prop :=
  ∃ forks, store.detectForks = .ok forks ∧ (forks = [] ∨ ∃ fork, forks = [fork] ∧
    (∀ id header, store.index.headers.get? id = some header → header.replicaId = store.replicaId →
      Below store.index.headers fork.transactions id) ∧
    ∀ context events, buildForkContext form store fork = .ok context →
      resolver context = .resolve events → ∀ event ∈ events, ∀ id,
        ¬ Extending store.index.headers (form.streamId event).value
          (store.index.streamHead (form.streamId event).value) id)

section Write

variable {minted : List Uuid} {store store' : FileEventStore Value} {form : ValueForm Value E}
  {stamp : Stamp} {fork : Fork} {events : List E}

theorem writeMerge_replicasChained (hs : Sound minted store) (hfresh : stamp.transactionId ∉ minted)
    (hheads : ∀ p ∈ fork.transactions, p ∈ store.index.headers)
    (h : writeMergeTransaction form store stamp fork events = .ok store') :
    ReplicasChained store'.index.headers ↔ ReplicasChained store.index.headers ∧
      ∀ id header, store.index.headers.get? id = some header →
        header.replicaId = store.replicaId → Below store.index.headers fork.transactions id := by
  obtain ⟨items,_,rfl⟩ := writeMerge_eq_ok h
  rw [commit_headers]
  exact replicasChained_extend_iff hs.wellFormed (fun hm => hfresh (hs.drawn hm)) hheads

theorem writeMerge_forked (hs : Sound minted store) (hfresh : stamp.transactionId ∉ minted)
    (hheads : ∀ p ∈ fork.transactions, p ∈ store.index.headers)
    (h : writeMergeTransaction form store stamp fork events = .ok store') {stream : String}
    {base : ℕ} :
    Forked store'.index.headers stream base ↔
      ((∃ event ∈ events, (form.streamId event).value = stream) ∧
        base = store.index.streamHead stream ∧
        ∃ a, Extending store.index.headers stream base a) ∨
      (¬ ((∃ event ∈ events, (form.streamId event).value = stream) ∧
          base = store.index.streamHead stream) ∧
        Forked store.index.headers stream base ∧
        ∃ a, Extending store.index.headers stream base a ∧
          ¬ Below store.index.headers fork.transactions a) := by
  obtain ⟨items,hitems,rfl⟩ := writeMerge_eq_ok h
  have hjoin : (mergeBases store.index items).get? stream = some base ↔
      (∃ event ∈ events, (form.streamId event).value = stream) ∧
        base = store.index.streamHead stream := by
    rw [mergeBases_get?,mergeItems_streams hitems,List.mem_map]
  rw [commit_headers,forked_extend_iff hs.wellFormed (fun hm => hfresh (hs.drawn hm)) hheads]
  simp only [mergeTransaction,ne_eq,hjoin,and_assoc]

theorem writeMerge_header (h : writeMergeTransaction form store stamp fork events = .ok store') :
    store'.replicaId = store.replicaId ∧
    ∃ header, store'.index.headers.get? stamp.transactionId = some header ∧
      header.replicaId = store.replicaId := by
  obtain ⟨items,_,rfl⟩ := writeMerge_eq_ok h
  exact ⟨rfl,_,by rw [commit_headers]; exact HashMap.get?_insert_self _ _ _,rfl⟩

theorem writeMerge_not_below (hs : Sound minted store) (hfresh : stamp.transactionId ∉ minted)
    (hheads : ∀ p ∈ fork.transactions, p ∈ store.index.headers)
    (h : writeMergeTransaction form store stamp fork events = .ok store') {parents : List Uuid}
    (hparents : ∀ p ∈ parents, p ∈ store.index.headers) :
    ¬ Below store'.index.headers parents stamp.transactionId := by
  obtain ⟨items,_,rfl⟩ := writeMerge_eq_ok h
  have hnew : stamp.transactionId ∉ store.index.headers := fun hm => hfresh (hs.drawn hm)
  rw [commit_headers]
  rintro ⟨p,hp,rfl | hanc⟩
  · exact hnew (hparents _ hp)
  · let header := (mergeTransaction store stamp fork items).header
    exact @fresh_not_ancestor store.index.headers header hs.wellFormed hnew hheads p hanc

end Write

section Pass

variable (form : ValueForm Value E) (resolver : ForkContext E → ResolutionOutcome E)

/-- The forks a pass writes a merge for: those resolved before the first failure, if any. -/
def mergedForks (store : FileEventStore Value) : List Fork → List Fork
  | [] => []
  | fork :: forks =>
    match buildForkContext form store fork with
    | .error _ => []
    | .ok context =>
      match resolver context with
      | .unresolvable _ => mergedForks store forks
      | .resolve events =>
        match mergeItems form events with
        | .error _ => []
        | .ok _ => fork :: mergedForks store forks

variable {minted : List Uuid} {store store' : FileEventStore Value} {stamp : ℕ → Stamp}

theorem mapM_congr {α β ε : Type} {f g : α → Except ε β} {l : List α} (h : ∀ a ∈ l, f a = g a) :
    l.mapM f = l.mapM g := by
  induction l with
  | nil => rfl
  | cons a l ih =>
    rw [List.mapM_cons,List.mapM_cons,h a List.mem_cons_self,
      ih fun b hb => h b (List.mem_cons_of_mem _ hb)]

theorem buildForkContext_commit (hs : Sound minted store) (t : Transaction Value)
    (tips : Headers → List Uuid) {fork : Fork}
    (hheads : ∀ p ∈ fork.transactions, p ∈ store.index.headers) :
    buildForkContext form (store.commit t tips) fork = buildForkContext form store fork := by
  unfold buildForkContext
  refine congrArg (Except.map _) (mapM_congr fun id hid => ?_)
  have hparse : parseTransaction (store.commit t tips) id = parseTransaction store id := by
    obtain ⟨u,hu,huid⟩ :=
      (mem_headersOf hs.nodup).mp (hs.headers.mem_iff.mp (hheads id hid))
    unfold parseTransaction
    rw [commit_files,List.find?_append]
    cases hfind : store.files.find? fun t => t.id = id with
    | some v => rfl
    | none => exact absurd (decide_eq_true huid) (List.find?_eq_none.mp hfind u hu)
  unfold buildBranch
  rw [hparse]

theorem mem_of_mergedForks {forks : List Fork} {f : Fork}
    (h : f ∈ mergedForks form resolver store forks) : f ∈ forks := by
  induction forks with
  | nil => simp [mergedForks] at h
  | cons fork forks ih =>
    unfold mergedForks at h
    split at h
    · simp at h
    · split at h
      · exact List.mem_cons_of_mem _ (ih h)
      · split at h
        · simp at h
        · rcases List.mem_cons.mp h with rfl | h
          · exact List.mem_cons_self
          · exact List.mem_cons_of_mem _ (ih h)

theorem mergedForks_commit (hs : Sound minted store) (t : Transaction Value)
    (tips : Headers → List Uuid) {forks : List Fork}
    (hheads : ∀ f ∈ forks, ∀ p ∈ f.transactions, p ∈ store.index.headers) :
    mergedForks form resolver (store.commit t tips) forks = mergedForks form resolver store forks := by
  induction forks with
  | nil => rfl
  | cons fork forks ih =>
    have hctx := buildForkContext_commit form hs t tips (hheads fork List.mem_cons_self)
    simp only [mergedForks,hctx,ih fun f hf => hheads f (List.mem_cons_of_mem _ hf)]

theorem writeMerge_keeps {stamp : Stamp} {fork : Fork} {events : List E} (hs : Sound minted store)
    (hfresh : stamp.transactionId ∉ minted)
    (hrun : writeMergeTransaction form store stamp fork events = .ok store') {id : Uuid}
    {header : TransactionHeader} (hget : store.index.headers.get? id = some header) :
    store'.index.headers.get? id = some header := by
  obtain ⟨items,_,rfl⟩ := writeMerge_eq_ok hrun
  have hnew : (mergeTransaction store stamp fork items).header.transactionId ∉ store.index.headers :=
    fun hm => hfresh (hs.drawn hm)
  rw [commit_headers]
  exact get?_extend hnew hget

theorem reconcileForks_keeps {forks : List Fork} (report : ReconcileReport) (hs : Sound minted store)
    (hheads : ∀ f ∈ forks, ∀ p ∈ f.transactions, p ∈ store.index.headers)
    (hids : (drawnIds stamp report.resolved forks.length).Nodup)
    (hfresh : ∀ id ∈ drawnIds stamp report.resolved forks.length, id ∉ minted) {id : Uuid}
    {header : TransactionHeader} (hget : store.index.headers.get? id = some header) :
    (reconcileForks form resolver stamp forks store report).2.index.headers.get? id = some header := by
  induction forks generalizing minted store report with
  | nil => exact hget
  | cons fork forks ih =>
    simp only [reconcileForks]
    have htail := fun f hf => hheads f (List.mem_cons_of_mem fork hf)
    cases hctx : buildForkContext form store fork with
    | error e => exact hget
    | ok context =>
      cases hres : resolver context with
      | unresolvable reason =>
        simp only [List.length_cons,drawnIds_succ',hres] at hids hfresh ⊢
        exact ih { report with unresolved := report.unresolved ++ [fork.streamId] } hs htail
          (List.nodup_append.mp hids).1 (fun id hid => hfresh id (List.mem_append_left _ hid)) hget
      | resolve events =>
        cases hrun : writeMergeTransaction form store (stamp report.resolved) fork events with
        | error e => simpa only [hres,hrun] using hget
        | ok store' =>
          simp only [List.length_cons,drawnIds_succ,hres,hrun] at hids hfresh ⊢
          have hnew := hfresh _ List.mem_cons_self
          exact ih { report with resolved := report.resolved+1 }
            (hs.writeMerge hnew (hheads fork List.mem_cons_self) hrun)
            (fun f hf p hp => writeMerge_headers hrun (htail f hf p hp)) (List.nodup_cons.mp hids).2
            (not_mem_tail hids hfresh) (writeMerge_keeps form hs hnew hrun hget)

/-- What a pass does to the store, by the merges it writes: none leaves the store alone, one is
written to it, and of two the replica conflict stays. -/
theorem reconcileForks_spec {forks : List Fork} (report : ReconcileReport) (hs : Sound minted store)
    (hheads : ∀ f ∈ forks, ∀ p ∈ f.transactions, p ∈ store.index.headers)
    (hids : (drawnIds stamp report.resolved forks.length).Nodup)
    (hfresh : ∀ id ∈ drawnIds stamp report.resolved forks.length, id ∉ minted) :
    (ReplicasChained (reconcileForks form resolver stamp forks store report).2.index.headers →
      ReplicasChained store.index.headers) ∧
    match mergedForks form resolver store forks with
    | [] => (reconcileForks form resolver stamp forks store report).2 = store
    | [g] => ∃ context events, buildForkContext form store g = .ok context ∧
        resolver context = .resolve events ∧
        writeMergeTransaction form store (stamp report.resolved) g events =
          .ok (reconcileForks form resolver stamp forks store report).2
    | g :: _ :: _ => ∃ context events store₁, buildForkContext form store g = .ok context ∧
        resolver context = .resolve events ∧
        writeMergeTransaction form store (stamp report.resolved) g events = .ok store₁ ∧
        ¬ ReplicasChained (reconcileForks form resolver stamp forks store report).2.index.headers := by
  induction forks generalizing minted store report with
  | nil => exact ⟨id,by simp [mergedForks,reconcileForks]⟩
  | cons fork forks ih =>
    simp only [mergedForks,reconcileForks]
    have htail := fun f hf => hheads f (List.mem_cons_of_mem fork hf)
    cases hctx : buildForkContext form store fork with
    | error e => exact ⟨id,rfl⟩
    | ok context =>
      cases hres : resolver context with
      | unresolvable reason =>
        simp only [List.length_cons,drawnIds_succ',hres] at hids hfresh ⊢
        refine ih { report with unresolved := report.unresolved ++ [fork.streamId] } hs htail
          (List.nodup_append.mp hids).1 ?_
        exact fun id hid => hfresh id (List.mem_append_left _ hid)
      | resolve events =>
        cases hitems : mergeItems form events with
        | error e =>
          simp [hres,hitems,writeMergeTransaction]
        | ok items =>
          have hrun : writeMergeTransaction form store (stamp report.resolved) fork events =
              .ok (store.commit (mergeTransaction store (stamp report.resolved) fork items)
                computeTips) := by
            rw [writeMergeTransaction,hitems]
          have hmine := hheads fork List.mem_cons_self
          simp only [List.length_cons,drawnIds_succ,hres,hitems,hrun] at hids hfresh ⊢
          have hnew := hfresh _ List.mem_cons_self
          have hs' := hs.writeMerge hnew hmine hrun
          have htail' : ∀ f ∈ forks, ∀ p ∈ f.transactions, p ∈ (store.commit
              (mergeTransaction store (stamp report.resolved) fork items) computeTips).index.headers :=
            fun f hf p hp => writeMerge_headers hrun (htail f hf p hp)
          have hfresh' := not_mem_tail hids hfresh
          obtain ⟨hkeeps,hrest⟩ := ih { report with resolved := report.resolved+1 } hs' htail'
            (List.nodup_cons.mp hids).2 hfresh'
          rw [mergedForks_commit form resolver hs _ _ htail] at hrest
          have hchain := writeMerge_replicasChained hs hnew hmine hrun
          refine ⟨fun h => (hchain.mp (hkeeps h)).1,?_⟩
          cases hmerged : mergedForks form resolver store forks with
          | nil =>
            rw [hmerged] at hrest
            exact ⟨context,events,hctx,hres,by rw [hrest,hrun]⟩
          | cons g gs =>
            refine ⟨context,events,_,hctx,hres,hrun,fun hend => ?_⟩
            rw [hmerged] at hrest
            cases gs with
            | cons => exact hrest.choose_spec.choose_spec.choose_spec.2.2.2 hend
            | nil =>
              -- the second merge would have to descend from the first, which is younger than its parents
              obtain ⟨context₂,events₂,_,_,hrun₂⟩ := hrest
              have hg : g ∈ forks :=
                mem_of_mergedForks form resolver (hmerged ▸ List.mem_cons_self)
              have hnew₂ : (stamp (report.resolved+1)).transactionId ∉
                  minted ++ [(stamp report.resolved).transactionId] :=
                hfresh' _ (stamp_mem_drawnIds stamp _ hg)
              have hall := (writeMerge_replicasChained hs' hnew₂ (htail' g hg) hrun₂).mp hend
              obtain ⟨hrep,header,hget,hheader⟩ := writeMerge_header hrun
              exact writeMerge_not_below hs hnew hmine hrun (htail g hg)
                (hall.2 _ header hget (hheader.trans hrep.symm))

theorem mergedForks_of_ok {forks : List Fork} (report : ReconcileReport) {report' : ReconcileReport}
    (hs : Sound minted store)
    (hheads : ∀ f ∈ forks, ∀ p ∈ f.transactions, p ∈ store.index.headers)
    (hids : (drawnIds stamp report.resolved forks.length).Nodup)
    (hfresh : ∀ id ∈ drawnIds stamp report.resolved forks.length, id ∉ minted)
    (hresolves : ∀ context, ∃ events, resolver context = .resolve events)
    (hok : (reconcileForks form resolver stamp forks store report).1 = .ok report') :
    mergedForks form resolver store forks = forks := by
  induction forks generalizing minted store report with
  | nil => rfl
  | cons fork forks ih =>
    simp only [mergedForks]
    simp only [reconcileForks] at hok
    cases hctx : buildForkContext form store fork with
    | error e => simp [hctx] at hok
    | ok context =>
      obtain ⟨events,hres⟩ := hresolves context
      cases hrun : writeMergeTransaction form store (stamp report.resolved) fork events with
      | error e => simp [hctx,hres,hrun] at hok
      | ok store' =>
        obtain ⟨items,hitems,hstore'⟩ := writeMerge_eq_ok hrun
        simp only [List.length_cons,drawnIds_succ] at hids hfresh
        simp only [hctx,hres,hrun] at hok
        simp only [hres,hitems]
        have htail := fun f hf => hheads f (List.mem_cons_of_mem fork hf)
        have hs' := hs.writeMerge (hfresh _ List.mem_cons_self) (hheads fork List.mem_cons_self) hrun
        have hrest := ih { report with resolved := report.resolved+1 } hs'
          (fun f hf p hp => writeMerge_headers hrun (htail f hf p hp)) (List.nodup_cons.mp hids).2
          (not_mem_tail hids hfresh) hok
        rw [hstore',mergedForks_commit form resolver hs _ _ htail] at hrest
        rw [hrest]

end Pass

section OnlyFork

variable {minted : List Uuid} {store store' : FileEventStore Value} {form : ValueForm Value E}
  {resolver : ForkContext E → ResolutionOutcome E} {stamp : Stamp} {fork : Fork}
  {context : ForkContext E} {events : List E}

theorem only_fork_below (hs : Sound minted store) (hdetect : store.detectForks = .ok [fork])
    {stream : String} {base : ℕ} {a : Uuid} (hf : Forked store.index.headers stream base)
    (ha : Extending store.index.headers stream base a) :
    Below store.index.headers fork.transactions a := by
  obtain ⟨_,hmem⟩ := detectForksIn_eq_ok hs.wellFormed hdetect
  obtain ⟨header,hget,hbase⟩ := id ha
  obtain ⟨streamId,rfl⟩ := hs.wellFormed.valid hget hbase
  let f : Fork :=
    ⟨streamId,base,(candidatesOf store.index.headers streamId.value base).insertionSort (· ≤ ·)⟩
  have hfork : f = fork := List.mem_singleton.mp ((hmem f).mpr ⟨hf,rfl⟩)
  refine ⟨a,(fork_transactions_mem hs.wellFormed hdetect List.mem_cons_self).mpr ?_,.inl rfl⟩
  rw [← hfork]
  exact ha

theorem writeMerge_closes_iff (hs : Sound minted store) (hfresh : stamp.transactionId ∉ minted)
    (hdetect : store.detectForks = .ok [fork]) (hctx : buildForkContext form store fork = .ok context)
    (hres : resolver context = .resolve events)
    (hrun : writeMergeTransaction form store stamp fork events = .ok store') :
    (ReplicasChained store'.index.headers ∧
      ∀ stream base, ¬ Forked store'.index.headers stream base) ↔ Closable form resolver store := by
  have hmine := hs.fork_heads hdetect fork List.mem_cons_self
  rw [writeMerge_replicasChained hs hfresh hmine hrun]
  simp only [writeMerge_forked hs hfresh hmine hrun]
  constructor
  · rintro ⟨⟨_,hbelow⟩,hnone⟩
    refine ⟨_,hdetect,.inr ⟨fork,rfl,hbelow,?_⟩⟩
    rintro context' events' hctx' hres' event hevent id hid
    obtain rfl := Except.ok.inj (hctx.symm.trans hctx')
    obtain rfl := ResolutionOutcome.resolve.inj (hres.symm.trans hres')
    exact hnone _ _ (.inl ⟨⟨event,hevent,rfl⟩,rfl,id,hid⟩)
  · rintro ⟨_,hforks,hcase⟩
    obtain rfl := Except.ok.inj (hdetect.symm.trans hforks)
    rcases hcase with hcase | ⟨_,hcase,hbelow,hbases⟩
    · cases hcase
    obtain rfl := (List.cons.inj hcase).1
    have hchain : ReplicasChained store.index.headers :=
      (detectForksIn_eq_ok hs.wellFormed hdetect).1
    refine ⟨⟨hchain,hbelow⟩,fun stream base hleft => ?_⟩
    rcases hleft with ⟨⟨event,hevent,rfl⟩,rfl,a,ha⟩ | ⟨_,hf,a,ha,hnot⟩
    · exact hbases context events hctx hres event hevent a ha
    · exact hnot (only_fork_below hs hdetect hf ha)

end OnlyFork

/-- After a reconciliation that resolved everything it was shown, no fork and no replica
conflict is left, here and after a reopen, exactly when the forks were closable. -/
theorem reconcile_closes_iff [DecidableEq ι] {parse : Raw → Option Value} {w w' : World ι Value}
    (hw : Runs.Reachable (system Any E parse) w) (r : ι) (form : ValueForm Value E)
    {resolver : ForkContext E → ResolutionOutcome E} {stamp : ℕ → Stamp} {report : ReconcileReport}
    (hresolves : ∀ context, ∃ events, resolver context = .resolve events)
    (hstep : (system Any E parse).step w (.reconcile r form resolver stamp) = some w')
    (hok : (reconcile form resolver stamp (w.replica r)).1 = .ok report) :
    ((w'.replica r).detectForks = .ok [] ∧ (w'.replica r).reopen.detectForks = .ok []) ↔
      Closable form resolver (w.replica r) := by
  have hs' : Sound w'.minted (w'.replica r) :=
    World.sound_of_reachable (hw.step trivial hstep) r
  have hreopen : ((w'.replica r).detectForks = .ok [] ∧
      (w'.replica r).reopen.detectForks = .ok []) ↔ (w'.replica r).detectForks = .ok [] := by
    have hsame := SameHeaders.detectForksIn_eq_nil hs'.headers hs'.wellFormed
    exact and_iff_left_of_imp fun h => hsame.mp h
  rw [hreopen,FileEventStore.detectForks,detectForksIn_eq_nil hs'.wellFormed]
  have hs := World.sound_of_reachable hw r
  simp only [system,World.step] at hstep
  split_ifs at hstep with hfresh
  obtain rfl := Option.some.inj hstep
  simp only [Function.update_self]
  revert hok
  generalize w.replica r = store at *
  unfold reconcile
  cases hdetect : store.detectForks with
  | error e => intro hok; cases hok
  | ok forks =>
    intro hok
    have hcount : forkCount store = forks.length := by rw [forkCount,hdetect]
    rw [hcount] at hfresh
    simp only at hok ⊢
    have hheads := hs.fork_heads hdetect
    have hmerged := mergedForks_of_ok form resolver ⟨0,[]⟩ hs hheads hfresh.1 hfresh.2 hresolves hok
    obtain ⟨_,hspec⟩ := reconcileForks_spec form resolver ⟨0,[]⟩ hs hheads hfresh.1 hfresh.2
    rw [hmerged] at hspec
    rcases forks with _ | ⟨fork,_ | ⟨second,forks⟩⟩
    · rw [hspec]
      exact iff_of_true ((detectForksIn_eq_nil hs.wellFormed).mp hdetect) ⟨[],hdetect,.inl rfl⟩
    · obtain ⟨context,events,hctx,hres,hrun⟩ := hspec
      have hnew : (stamp 0).transactionId ∉ w.minted :=
        hfresh.2 _ (stamp_mem_drawnIds stamp 0 List.mem_cons_self)
      exact writeMerge_closes_iff hs hnew hdetect hctx hres hrun
    · obtain ⟨_,_,_,_,_,_,hnot⟩ := hspec
      refine iff_of_false (fun h => hnot h.1) ?_
      rintro ⟨_,hforks,hcase⟩
      obtain rfl := Except.ok.inj (hdetect.symm.trans hforks)
      rcases hcase with hcase | ⟨_,hcase,_⟩ <;> simp at hcase

section Scenarios
open TwoCopies

/-- A run up to a reachable world, followed by one reconciliation of the second copy. -/
def reconcileAfter (actions : List (Action Bool ℕ ℕ ℕ ℕ)) (events : List ℕ) :
    Option (Except FsEventStoreError ReconcileReport × Except FsEventStoreError (List Fork)) :=
  (Runs.exec twoCopies start actions).bind fun w =>
    (twoCopies.step w (.reconcile true deposits (fun _ => .resolve events) fun k => stamp (3+k))).map
      fun w' => ((reconcile deposits (fun _ => .resolve events) (fun k => stamp (3+k))
        (w.replica true)).1,(w'.replica true).detectForks)

theorem reconcileAfter_eq_some {actions : List (Action Bool ℕ ℕ ℕ ℕ)} {events : List ℕ}
    {answer : Except FsEventStoreError ReconcileReport × Except FsEventStoreError (List Fork)}
    (h : reconcileAfter actions events = some answer) :
    ∃ w w', Runs.Reachable twoCopies w ∧ Runs.exec twoCopies start actions = some w ∧
      twoCopies.step w (.reconcile true deposits (fun _ => .resolve events) fun k => stamp (3+k)) =
        some w' ∧
      (reconcile deposits (fun _ => .resolve events) (fun k => stamp (3+k)) (w.replica true)).1 =
        answer.1 ∧ (w'.replica true).detectForks = answer.2 := by
  unfold reconcileAfter at h
  simp only [Option.bind_eq_some_iff,Option.map_eq_some_iff] at h
  obtain ⟨w,hw,w',hw',rfl⟩ := h
  exact ⟨w,w',start_reachable.exec hw,hw,hw',rfl,rfl⟩

/-- Two working copies write to two streams each, one takes in the other's files and resolves
both forks: its two merge transactions are reported as a replica conflict. -/
theorem reconcile_leaves_conflict :
    ∃ w w' report, Runs.Reachable twoCopies w ∧
      twoCopies.step w (.reconcile true deposits (fun _ => .resolve []) fun k => stamp (3+k)) =
        some w' ∧
      (reconcile deposits (fun _ => .resolve []) (fun k => stamp (3+k)) (w.replica true)).1 =
        .ok report ∧
      (w'.replica true).detectForks = .error (.replicaIdentityConflict 3 4 2) := by
  have hrun : reconcileAfter (divergeOn openBoth) [] =
      some (.ok ⟨2,[]⟩,.error (.replicaIdentityConflict 3 4 2)) := by decide +kernel
  obtain ⟨w,w',hw,_,hstep,hok,hdetect⟩ := reconcileAfter_eq_some hrun
  exact ⟨w,w',_,hw,hstep,hok,hdetect⟩

/-- One fork, whose resolution deposits on top of both branches. -/
theorem reconcile_closes_iff_single :
    ∃ w w' : World Bool ℕ, Runs.exec twoCopies start (divergeOn openOne) = some w ∧
      (((w'.replica true).detectForks = .ok [] ∧ (w'.replica true).reopen.detectForks = .ok []) ↔
        Closable deposits (fun _ => .resolve [7]) (w.replica true)) ∧
      (w'.replica true).detectForks = .ok [] := by
  have hrun : reconcileAfter (divergeOn openOne) [7] = some (.ok ⟨1,[]⟩,.ok []) := by decide +kernel
  obtain ⟨w,w',hw,hexec,hstep,hok,hdetect⟩ := reconcileAfter_eq_some hrun
  exact ⟨w,w',hexec,
    reconcile_closes_iff hw true deposits (fun _ => ⟨[7],rfl⟩) hstep hok,hdetect⟩

end Scenarios

end FileStore
end EventCore
