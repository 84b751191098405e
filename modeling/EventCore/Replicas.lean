import EventCore.FileStore
import EventCore.FreshTransaction
import EventCore.Runs

/-! Several working copies of one history: each appends, reconciles and reopens on its own,
and an `events/` directory is merged into another between two opens of it. -/
namespace EventCore
namespace FileStore
open GraphSearch

variable {Any Raw Value E ι : Type}

/-- What holds of one open store, for the transaction ids drawn so far in drawing order. -/
structure Sound (minted : List Uuid) (store : FileEventStore Value) : Prop where
  nodup : (store.files.map Transaction.id).Nodup
  headers : SameHeaders store.index.headers (headersOf store.files)
  wellFormed : WellFormed store.index.headers
  drawn : ∀ {id}, id ∈ store.index.headers → id ∈ minted
  ranked : ∀ {id parent}, parent ∈ parentsOf store.index.headers id →
    minted.idxOf parent < minted.idxOf id
  tips : ∀ {id}, id ∈ store.index.tips → id ∈ store.index.headers
  tipsCover : ∀ {id}, id ∈ store.index.headers →
    (∀ x, id ∉ parentsOf store.index.headers x) → id ∈ store.index.tips

section Store

variable {minted : List Uuid} {store : FileEventStore Value}

theorem Sound.get?_of_mem (h : Sound minted store) {u : Transaction Value} (hu : u ∈ store.files) :
    store.index.headers.get? u.id = some u.header := by
  rw [h.headers]
  exact (headersOf_get? h.nodup).mpr ⟨u,hu,rfl,rfl⟩

theorem Sound.mem_headers (h : Sound minted store) {u : Transaction Value} (hu : u ∈ store.files) :
    u.id ∈ store.index.headers := HashMap.mem_of_get? (h.get?_of_mem hu)

theorem Sound.exists_file (h : Sound minted store) {id : Uuid} {header : TransactionHeader}
    (hget : store.index.headers.get? id = some header) :
    ∃ t ∈ store.files, t.id = id ∧ t.header = header := by
  rw [h.headers] at hget
  exact (headersOf_get? h.nodup).mp hget

theorem Sound.create (replicaId : Uuid) : Sound [] (.create replicaId : FileEventStore Value) := by
  have hempty : (.create replicaId : FileEventStore Value).index.headers = ∅ := rfl
  refine ⟨List.nodup_nil,fun _ => rfl,⟨?_,?_,?_⟩,?_,?_,?_,?_⟩
  · simp [hempty]
  · simp [hempty]
  · simp [hempty]
  · simp [hempty]
  · simp [hempty]
  · intro id hid
    exact (mem_computeTips.mp hid).1
  · simp [hempty]

theorem Sound.reopen (h : Sound minted store) : Sound minted store.reopen := by
  have hsame : SameHeaders store.index.headers store.reopen.index.headers := h.headers
  refine ⟨h.nodup,fun _ => rfl,hsame.wellFormed h.wellFormed,?_,?_,?_,?_⟩
  · exact fun hid => h.drawn (hsame.mem_iff.mpr hid)
  · intro id parent hp
    exact h.ranked (hsame.parentsOf ▸ hp)
  · exact fun hid => (mem_computeTips.mp hid).1
  · exact fun hid hnone => mem_computeTips.mpr ⟨hid,hnone⟩

theorem Sound.mono (h : Sound minted store) (ids : List Uuid) : Sound (minted ++ ids) store where
  nodup := h.nodup
  headers := h.headers
  wellFormed := h.wellFormed
  drawn hid := List.mem_append_left _ (h.drawn hid)
  ranked {id parent} hp := by
    have hid : id ∈ store.index.headers := mem_of_parentsOf hp
    rw [List.idxOf_append_of_mem (h.drawn (h.wellFormed.closed hp)),
      List.idxOf_append_of_mem (h.drawn hid)]
    exact h.ranked hp
  tips := h.tips
  tipsCover := h.tipsCover

theorem Sound.below_tips (h : Sound minted store) {id : Uuid} (hid : id ∈ store.index.headers) :
    Below store.index.headers store.index.tips id := by
  have hmem : id ∈ store.index.headers.keys.toFinset :=
    List.mem_toFinset.mpr (AList.mem_keys.mp hid)
  obtain ⟨t,ht,hbelow,hnone⟩ := exists_unreferenced (fun _ _ hp => h.ranked hp) _ hmem
  have htm : t ∈ store.index.headers := AList.mem_keys.mpr (List.mem_toFinset.mp ht)
  refine ⟨t,h.tipsCover htm fun x hx => ?_,hbelow⟩
  exact hnone x (List.mem_toFinset.mpr (AList.mem_keys.mp (mem_of_parentsOf hx))) hx

theorem Sound.commit (h : Sound minted store) {t : Transaction Value} {tips : Headers → List Uuid}
    (hfresh : t.id ∉ minted) (hparents : ∀ p ∈ t.header.parentTransactionIds, p ∈ store.index.headers)
    (hvalid : ∀ {stream base}, t.header.streamBases.get? stream = some base →
      ∃ streamId : StreamId, streamId.value = stream)
    (htips : ∀ {id}, id ∈ tips (extend store.index.headers t.header) →
      id ∈ extend store.index.headers t.header)
    (hcover : ∀ {id}, id ∈ extend store.index.headers t.header →
      (∀ x, id ∉ parentsOf (extend store.index.headers t.header) x) →
        id ∈ tips (extend store.index.headers t.header)) :
    Sound (minted ++ [t.id]) (store.commit t tips) := by
  have hnew : t.id ∉ store.index.headers := fun hm => hfresh (h.drawn hm)
  have hnodup : ((store.files ++ [t]).map Transaction.id).Nodup := by
    rw [List.map_append,List.map_singleton]
    refine List.Nodup.append h.nodup (List.nodup_singleton _) ?_
    intro id hid hid'
    obtain rfl : id = t.id := List.mem_singleton.mp hid'
    obtain ⟨u,hu,hut⟩ := List.mem_map.mp hid
    exact hnew (hut ▸ h.mem_headers hu)
  refine ⟨hnodup,?_,?_,?_,?_,?_,?_⟩
  · intro id
    rw [commit_headers,commit_files,HashMap.get?_insert,h.headers]
    unfold headersOf
    rw [List.foldl_append,List.foldl_cons,List.foldl_nil,HashMap.get?_insert]
  · rw [commit_headers]
    exact h.wellFormed.extend hparents hvalid
  · intro id hid
    rw [commit_headers] at hid
    rcases mem_extend.mp hid with rfl | hid
    · simp [Transaction.id]
    · exact List.mem_append_left _ (h.drawn hid)
  · intro id parent hp
    rw [commit_headers,parentsOf_insert] at hp
    split_ifs at hp with hid
    · have hpm := h.drawn (hparents parent hp)
      rw [List.idxOf_append_of_mem hpm,List.idxOf_append_of_notMem (hid ▸ hfresh)]
      exact (List.idxOf_lt_length_of_mem hpm).trans_le (Nat.le_add_right _ _)
    · exact (h.mono [t.id]).ranked hp
  · intro id hid
    rw [commit_headers]
    exact htips hid
  · intro id hid hnone
    rw [commit_headers] at hid hnone
    exact hcover hid hnone

theorem Sound.commit_append (h : Sound minted store) {t : Transaction Value}
    (hfresh : t.id ∉ minted) (hparents : t.header.parentTransactionIds = store.index.tips)
    (hvalid : ∀ {stream base}, t.header.streamBases.get? stream = some base →
      ∃ streamId : StreamId, streamId.value = stream) :
    Sound (minted ++ [t.id]) (store.commit t fun _ => [t.id]) := by
  have hmem : ∀ p ∈ t.header.parentTransactionIds, p ∈ store.index.headers := by
    intro p hp
    exact h.tips (hparents ▸ hp)
  refine h.commit hfresh hmem hvalid ?_ ?_
  · intro id hid
    exact mem_extend.mpr (.inl (List.mem_singleton.mp hid))
  · intro id hid hnone
    rcases mem_extend.mp hid with hid | hid
    · exact List.mem_singleton.mpr hid
    · exfalso
      have hnew : t.header.transactionId ∉ store.index.headers := fun hm => hfresh (h.drawn hm)
      have hne : id ≠ t.header.transactionId := fun he => hnew (he ▸ hid)
      have htip : id ∈ store.index.tips := by
        refine h.tipsCover hid fun x hx => ?_
        have hxm : x ≠ t.header.transactionId := fun he => hnew (he ▸ mem_of_parentsOf hx)
        exact hnone x (by rw [parentsOf_extend_ne hxm]; exact hx)
      exact hnone t.header.transactionId (by rw [parentsOf_extend_self,hparents]; exact htip)

theorem Sound.commit_merge (h : Sound minted store) {t : Transaction Value}
    (hfresh : t.id ∉ minted) (hparents : ∀ p ∈ t.header.parentTransactionIds, p ∈ store.index.headers)
    (hvalid : ∀ {stream base}, t.header.streamBases.get? stream = some base →
      ∃ streamId : StreamId, streamId.value = stream) :
    Sound (minted ++ [t.id]) (store.commit t computeTips) :=
  h.commit hfresh hparents hvalid (fun hid => (mem_computeTips.mp hid).1)
    fun hid hnone => mem_computeTips.mpr ⟨hid,hnone⟩

end Store

/-- The files of another working copy join those already there. -/
def unionFiles (mine theirs : List (Transaction Value)) : List (Transaction Value) :=
  mine ++ theirs.filter fun t => t.id ∉ mine.map Transaction.id

structure World (ι Value : Type) where
  replica : ι → FileEventStore Value
  minted : List Uuid

inductive Action (ι Any Raw Value E : Type)
  | append (r : ι) (writes : StreamWrites Any Raw) (stamp : Stamp)
  | reopen (r : ι)
  | reconcile (r : ι) (form : ValueForm Value E) (resolver : ForkContext E → ResolutionOutcome E)
      (stamp : ℕ → Stamp)
  | merge (r source : ι)

/-- Ids of `n` stamps from the `k`-th on. -/
def drawnIds (stamp : ℕ → Stamp) (k n : ℕ) : List Uuid :=
  (List.range' k n).map fun k => (stamp k).transactionId

def forkCount (store : FileEventStore Value) : ℕ :=
  match store.detectForks with
  | .error _ => 0
  | .ok forks => forks.length

/-- Drawn ids are fresh; an `events/` directory is merged while its store is closed. -/
def World.step [DecidableEq ι] (parse : Raw → Option Value) (w : World ι Value) :
    Action ι Any Raw Value E → Option (World ι Value)
  | .append r writes stamp =>
    if stamp.transactionId ∈ w.minted then none
    else some
      ⟨Function.update w.replica r (appendEvents parse (w.replica r) stamp writes).2,
        w.minted ++ [stamp.transactionId]⟩
  | .reopen r => some ⟨Function.update w.replica r (w.replica r).reopen,w.minted⟩
  | .reconcile r form resolver stamp =>
    let ids := drawnIds stamp 0 (forkCount (w.replica r))
    if ids.Nodup ∧ ∀ id ∈ ids, id ∉ w.minted then some
      ⟨Function.update w.replica r (reconcile form resolver stamp (w.replica r)).2,
        w.minted ++ ids⟩
    else none
  | .merge r source => some
      ⟨Function.update w.replica r
        { w.replica r with
          files := unionFiles (w.replica r).files (w.replica source).files }.reopen,w.minted⟩

def system [DecidableEq ι] (Any E : Type) (parse : Raw → Option Value) :
    Runs.System (World ι Value) (Action ι Any Raw Value E) where
  init w := w.minted = [] ∧ ∃ replicaId : ι → Uuid, Function.Injective replicaId ∧
    ∀ r, w.replica r = .create (replicaId r)
  step := World.step parse

theorem update_replicaId [DecidableEq ι] {w : World ι Value} {r : ι} {store : FileEventStore Value}
    (hrep : store.replicaId = (w.replica r).replicaId) (r' : ι) :
    (Function.update w.replica r store r').replicaId = (w.replica r').replicaId := by
  by_cases hr : r' = r
  · rw [hr,Function.update_self,hrep]
  · rw [Function.update_of_ne hr]

/-- `Effect parse w l r store ids`: in `w`, `l` gives the replica `r` this store and draws `ids`. -/
inductive Effect (parse : Raw → Option Value) (w : World ι Value) :
    Action ι Any Raw Value E → ι → FileEventStore Value → List Uuid → Prop
  | append {r : ι} {writes : StreamWrites Any Raw} {stamp : Stamp}
      (hfresh : stamp.transactionId ∉ w.minted) :
      Effect parse w (.append r writes stamp) r
        (appendEvents parse (w.replica r) stamp writes).2 [stamp.transactionId]
  | reopen {r : ι} : Effect parse w (.reopen r) r (w.replica r).reopen []
  | reconcile {r : ι} {form : ValueForm Value E} {resolver : ForkContext E → ResolutionOutcome E}
      {stamp : ℕ → Stamp} (hids : (drawnIds stamp 0 (forkCount (w.replica r))).Nodup)
      (hfresh : ∀ id ∈ drawnIds stamp 0 (forkCount (w.replica r)), id ∉ w.minted) :
      Effect parse w (.reconcile r form resolver stamp) r
        (reconcile form resolver stamp (w.replica r)).2
        (drawnIds stamp 0 (forkCount (w.replica r)))
  | merge {r source : ι} : Effect parse w (.merge r source) r
      { w.replica r with
        files := unionFiles (w.replica r).files (w.replica source).files }.reopen []

theorem World.step_cases [DecidableEq ι] {parse : Raw → Option Value} {w w' : World ι Value}
    {l : Action ι Any Raw Value E} (hstep : (system Any E parse).step w l = some w') :
    ∃ r store ids, Effect parse w l r store ids ∧
      w' = ⟨Function.update w.replica r store,w.minted ++ ids⟩ := by
  cases l with
  | append r writes stamp =>
    simp only [system,World.step] at hstep
    split_ifs at hstep with hfresh
    exact ⟨r,_,_,.append hfresh,(Option.some.inj hstep).symm⟩
  | reopen r => exact ⟨r,_,[],.reopen,by rw [List.append_nil]; exact (Option.some.inj hstep).symm⟩
  | reconcile r form resolver stamp =>
    simp only [system,World.step] at hstep
    split_ifs at hstep with hfresh
    exact ⟨r,_,_,.reconcile hfresh.1 hfresh.2,(Option.some.inj hstep).symm⟩
  | merge r source =>
    exact ⟨r,_,[],.merge,by rw [List.append_nil]; exact (Option.some.inj hstep).symm⟩

theorem mem_parentsOf_headersOf {ts : List (Transaction Value)}
    (hnodup : (ts.map Transaction.id).Nodup) {id parent : Uuid} :
    parent ∈ parentsOf (headersOf ts) id ↔
      ∃ t ∈ ts, t.id = id ∧ parent ∈ t.header.parentTransactionIds := by
  constructor
  · intro hp
    obtain ⟨t,ht,hid⟩ := (mem_headersOf hnodup).mp (mem_of_parentsOf hp)
    rw [parentsOf,(headersOf_get? hnodup).mpr ⟨t,ht,hid,rfl⟩] at hp
    exact ⟨t,ht,hid,hp⟩
  · rintro ⟨t,ht,hid,hp⟩
    rw [parentsOf,(headersOf_get? hnodup).mpr ⟨t,ht,hid,rfl⟩]
    exact hp

section Union

variable {minted : List Uuid} {mine theirs : FileEventStore Value}

theorem Sound.union (hmine : Sound minted mine) (htheirs : Sound minted theirs) :
    Sound minted
      ({ mine with files := unionFiles mine.files theirs.files } : FileEventStore Value).reopen := by
  let files := unionFiles mine.files theirs.files
  have hmem : ∀ t ∈ files, t ∈ mine.files ∨ t ∈ theirs.files := by
    intro t ht
    rcases List.mem_append.mp ht with ht | ht
    · exact .inl ht
    · exact .inr (List.mem_filter.mp ht).1
  have hnodup : (files.map Transaction.id).Nodup := by
    rw [show files = mine.files ++ _ from rfl,List.map_append]
    refine List.Nodup.append hmine.nodup
      (htheirs.nodup.sublist (List.Sublist.map _ List.filter_sublist)) ?_
    intro id hid hid'
    obtain ⟨t,ht,rfl⟩ := List.mem_map.mp hid'
    exact of_decide_eq_true (List.mem_filter.mp ht).2 hid
  have hback : ∀ {id}, id ∈ mine.index.headers ∨ id ∈ theirs.index.headers → id ∈ headersOf files := by
    rintro id (hid | hid)
    · obtain ⟨t,ht,hti⟩ := (mem_headersOf hmine.nodup).mp (hmine.headers.mem_iff.mp hid)
      exact (mem_headersOf hnodup).mpr ⟨t,List.mem_append_left _ ht,hti⟩
    · obtain ⟨t,ht,hti⟩ := (mem_headersOf htheirs.nodup).mp (htheirs.headers.mem_iff.mp hid)
      refine (mem_headersOf hnodup).mpr ?_
      by_cases hm : t.id ∈ mine.files.map Transaction.id
      · obtain ⟨u,hu,hut⟩ := List.mem_map.mp hm
        exact ⟨u,List.mem_append_left _ hu,hut.trans hti⟩
      · exact ⟨t,List.mem_append_right _ (List.mem_filter.mpr ⟨ht,decide_eq_true hm⟩),hti⟩
  have hparent : ∀ {t parent}, t ∈ files → parent ∈ t.header.parentTransactionIds →
      (parent ∈ mine.index.headers ∨ parent ∈ theirs.index.headers) ∧
      minted.idxOf parent < minted.idxOf t.id := by
    intro t parent ht hp
    rcases hmem t ht with ht | ht
    · have hp' : parent ∈ parentsOf mine.index.headers t.id := by
        rw [parentsOf,hmine.get?_of_mem ht]
        exact hp
      exact ⟨.inl (hmine.wellFormed.closed hp'),hmine.ranked hp'⟩
    · have hp' : parent ∈ parentsOf theirs.index.headers t.id := by
        rw [parentsOf,htheirs.get?_of_mem ht]
        exact hp
      exact ⟨.inr (htheirs.wellFormed.closed hp'),htheirs.ranked hp'⟩
  refine ⟨hnodup,fun _ => rfl,⟨?_,?_,?_⟩,?_,?_,?_,?_⟩
  · intro id header hget
    obtain ⟨t,_,hid,rfl⟩ := (headersOf_get? hnodup).mp hget
    exact hid
  · intro id parent hp
    obtain ⟨t,ht,_,hpt⟩ := (mem_parentsOf_headersOf hnodup).mp hp
    exact hback (hparent ht hpt).1
  · intro id header hget stream base hbase
    obtain ⟨t,ht,_,rfl⟩ := (headersOf_get? hnodup).mp hget
    rcases hmem t ht with ht | ht
    · exact hmine.wellFormed.valid (hmine.get?_of_mem ht) hbase
    · exact htheirs.wellFormed.valid (htheirs.get?_of_mem ht) hbase
  · intro id hid
    obtain ⟨t,ht,rfl⟩ := (mem_headersOf hnodup).mp hid
    rcases hmem t ht with ht | ht
    · exact hmine.drawn (hmine.mem_headers ht)
    · exact htheirs.drawn (htheirs.mem_headers ht)
  · intro id parent hp
    obtain ⟨t,ht,rfl,hpt⟩ := (mem_parentsOf_headersOf hnodup).mp hp
    exact (hparent ht hpt).2
  · exact fun hid => (mem_computeTips.mp hid).1
  · exact fun hid hnone => mem_computeTips.mpr ⟨hid,hnone⟩

end Union

section Steps

variable {minted : List Uuid} {store : FileEventStore Value}

theorem Sound.appendEvents (h : Sound minted store) (parse : Raw → Option Value) {stamp : Stamp}
    (writes : StreamWrites Any Raw) (hfresh : stamp.transactionId ∉ minted) :
    Sound (minted ++ [stamp.transactionId]) (appendEvents parse store stamp writes).2 := by
  rcases appendEvents_store parse store stamp writes with hrun | ⟨t,hprep,hrun⟩
  · rw [hrun]
    exact h.mono _
  · obtain ⟨hid,_,hparents,_⟩ := prepareAppend_eq_ok hprep
    rw [hrun,← hid]
    exact h.commit_append (hid ▸ hfresh) hparents (prepareAppend_valid hprep)

theorem mergeItems_streams {form : ValueForm Value E} {events : List E}
    {items : List (String × String × Value)} (h : mergeItems form events = .ok items) :
    items.map Prod.fst = events.map fun e => (form.streamId e).value := by
  induction events generalizing items with
  | nil =>
    obtain rfl : [] = items := Except.ok.inj h
    rfl
  | cons e events ih =>
    rw [mergeItems,List.mapM_cons] at h
    cases hv : form.toValue e with
    | error err => simp [hv,bind,Except.bind] at h
    | ok v =>
      cases hrest : mergeItems form events with
      | error err => simp [hv,bind,Except.bind,show events.mapM _ = _ from hrest] at h
      | ok rest =>
        simp only [hv,bind,Except.bind,show events.mapM _ = _ from hrest,pure,Except.pure,
          Except.ok.injEq] at h
        subst h
        simp [ih hrest]

theorem Sound.writeMerge (h : Sound minted store) {form : ValueForm Value E} {stamp : Stamp}
    {fork : Fork} {events : List E} {store' : FileEventStore Value}
    (hfresh : stamp.transactionId ∉ minted)
    (hheads : ∀ p ∈ fork.transactions, p ∈ store.index.headers)
    (hrun : writeMergeTransaction form store stamp fork events = .ok store') :
    Sound (minted ++ [stamp.transactionId]) store' := by
  obtain ⟨items,hitems,rfl⟩ := writeMerge_eq_ok hrun
  refine Sound.commit_merge (t := mergeTransaction store stamp fork items) h hfresh hheads ?_
  intro stream base hbase
  have hmem := ((mergeBases_get? store.index items).mp hbase).1
  rw [mergeItems_streams hitems] at hmem
  obtain ⟨e,_,he⟩ := List.mem_map.mp hmem
  exact ⟨_,he⟩

theorem drawnIds_succ (stamp : ℕ → Stamp) (k n : ℕ) :
    drawnIds stamp k (n+1) = (stamp k).transactionId :: drawnIds stamp (k+1) n := by
  simp [drawnIds,List.range'_succ]

theorem drawnIds_succ' (stamp : ℕ → Stamp) (k n : ℕ) :
    drawnIds stamp k (n+1) = drawnIds stamp k n ++ [(stamp (k+n)).transactionId] := by
  simp [drawnIds,List.range'_concat]

theorem stamp_mem_drawnIds (stamp : ℕ → Stamp) (k : ℕ) {forks : List Fork} {f : Fork}
    (hf : f ∈ forks) : (stamp k).transactionId ∈ drawnIds stamp k forks.length :=
  List.mem_map.mpr ⟨k,List.mem_range'_1.mpr ⟨le_rfl,by simpa using List.length_pos_of_mem hf⟩,rfl⟩

theorem not_mem_tail {x : Uuid} {l : List Uuid} (hnodup : (x :: l).Nodup)
    (hfresh : ∀ id ∈ x :: l, id ∉ minted) : ∀ id ∈ l, id ∉ minted ++ [x] := by
  intro id hid hmem
  rcases List.mem_append.mp hmem with hmem | hmem
  · exact hfresh id (List.mem_cons_of_mem _ hid) hmem
  · exact (List.nodup_cons.mp hnodup).1 (List.mem_singleton.mp hmem ▸ hid)

theorem writeMerge_headers {form : ValueForm Value E} {stamp : Stamp} {fork : Fork}
    {events : List E} {store' : FileEventStore Value}
    (hrun : writeMergeTransaction form store stamp fork events = .ok store') {id : Uuid}
    (hid : id ∈ store.index.headers) : id ∈ store'.index.headers := by
  obtain ⟨items,_,rfl⟩ := writeMerge_eq_ok hrun
  rw [commit_headers]
  exact mem_extend.mpr (.inr hid)

/-- The loop over the forks keeps its store sound, whatever each fork is answered. -/
theorem Sound.reconcileForks (form : ValueForm Value E)
    (resolver : ForkContext E → ResolutionOutcome E) {stamp : ℕ → Stamp} {forks : List Fork}
    (report : ReconcileReport) (h : Sound minted store)
    (hheads : ∀ f ∈ forks, ∀ p ∈ f.transactions, p ∈ store.index.headers)
    (hids : (drawnIds stamp report.resolved forks.length).Nodup)
    (hfresh : ∀ id ∈ drawnIds stamp report.resolved forks.length, id ∉ minted) :
    Sound (minted ++ drawnIds stamp report.resolved forks.length)
      (reconcileForks form resolver stamp forks store report).2 := by
  induction forks generalizing minted store report with
  | nil => simpa [FileStore.reconcileForks] using h.mono _
  | cons fork forks ih =>
    simp only [FileStore.reconcileForks]
    cases hctx : buildForkContext form store fork with
    | error e => exact h.mono _
    | ok context =>
      cases hres : resolver context with
      | unresolvable reason =>
        simp only [List.length_cons,hres] at hids hfresh ⊢
        rw [drawnIds_succ'] at hids hfresh ⊢
        rw [← List.append_assoc]
        refine Sound.mono ?_ _
        refine ih { report with unresolved := report.unresolved ++ [fork.streamId] } h
          (fun f hf => hheads f (List.mem_cons_of_mem _ hf)) ?_ ?_
        · exact (List.nodup_append.mp hids).1
        · exact fun id hid => hfresh id (List.mem_append_left _ hid)
      | resolve events =>
        cases hrun : writeMergeTransaction form store (stamp report.resolved) fork events with
        | error e => simpa only [hres,hrun] using h.mono _
        | ok store' =>
          simp only [List.length_cons,hres,hrun] at hids hfresh ⊢
          rw [drawnIds_succ] at hids hfresh ⊢
          rw [List.append_cons]
          have hstep := h.writeMerge (hfresh _ List.mem_cons_self)
            (hheads fork List.mem_cons_self) hrun
          refine ih { report with resolved := report.resolved+1 } hstep ?_
            (List.nodup_cons.mp hids).2 (not_mem_tail hids hfresh)
          intro f hf p hp
          exact writeMerge_headers hrun (hheads f (List.mem_cons_of_mem _ hf) p hp)

theorem fork_transactions_mem {headers : Headers} (hwf : WellFormed headers) {forks : List Fork}
    (hdetect : detectForksIn headers = .ok forks) {f : Fork} (hf : f ∈ forks) {id : Uuid} :
    id ∈ f.transactions ↔ Extending headers f.streamId.value f.baseVersion id := by
  obtain ⟨_,hmem⟩ := detectForksIn_eq_ok hwf hdetect
  rw [((hmem f).mp hf).2,List.mem_insertionSort,mem_candidatesOf hwf]

theorem Sound.fork_heads (h : Sound minted store) {forks : List Fork}
    (hdetect : store.detectForks = .ok forks) :
    ∀ f ∈ forks, ∀ p ∈ f.transactions, p ∈ store.index.headers :=
  fun _ hf _ hp => extending_mem ((fork_transactions_mem h.wellFormed hdetect hf).mp hp)

theorem Sound.reconcile (form : ValueForm Value E)
    (resolver : ForkContext E → ResolutionOutcome E) {stamp : ℕ → Stamp} (h : Sound minted store)
    (hids : (drawnIds stamp 0 (forkCount store)).Nodup)
    (hfresh : ∀ id ∈ drawnIds stamp 0 (forkCount store), id ∉ minted) :
    Sound (minted ++ drawnIds stamp 0 (forkCount store)) (reconcile form resolver stamp store).2 := by
  unfold FileStore.reconcile forkCount at *
  cases hdetect : store.detectForks with
  | error e => exact h.mono _
  | ok forks =>
    simp only [hdetect] at hids hfresh ⊢
    exact h.reconcileForks form resolver ⟨0,[]⟩ (h.fork_heads hdetect) hids hfresh

end Steps

theorem World.sound_of_reachable [DecidableEq ι] {parse : Raw → Option Value} {w : World ι Value}
    (hw : Runs.Reachable (system Any E parse) w) (r : ι) : Sound w.minted (w.replica r) := by
  revert r
  refine Runs.ReachableBy.invariant (I := fun w => ∀ r, Sound w.minted (w.replica r)) ?_ ?_ hw
  · rintro w ⟨hminted,replicaId,_,hrep⟩ r
    rw [hminted,hrep]
    exact Sound.create _
  · rintro w l w' hI - hstep r
    obtain ⟨r₀,store,ids,heffect,rfl⟩ := World.step_cases hstep
    by_cases hr : r = r₀
    · subst hr
      simp only [Function.update_self]
      cases heffect with
      | append hfresh => exact (hI r).appendEvents parse _ hfresh
      | reopen => exact (hI r).reopen.mono []
      | reconcile hids hfresh => exact (hI r).reconcile _ _ hids hfresh
      | merge => exact ((hI r).union (hI _)).mono []
    · simp only [Function.update_of_ne hr]
      exact (hI r).mono ids

namespace TwoCopies

def account1 : StreamId := Sample.account

def account2 : StreamId := Sample.savings

theorem mem_insert_of_mem_singleton {version : ℕ} (entry : StreamWriteEntry ℕ ℕ)
    (h : entry ∈ [(⟨account1,5,"Deposited",5⟩ : StreamWriteEntry ℕ ℕ)]) :
    entry.streamId ∈ AList.insert account1 version (∅ : HashMap StreamId StreamVersion) := by
  rw [List.mem_singleton.mp h]
  exact (AList.mem_insert _).mpr (.inl rfl)

def openOne : StreamWrites ℕ ℕ :=
  ⟨[⟨account1,5,"Deposited",5⟩],AList.insert account1 0 ∅,by decide⟩

def openOther : StreamWrites ℕ ℕ :=
  ⟨[⟨account2,5,"Deposited",5⟩],AList.insert account2 0 ∅,by decide⟩

def openBoth : StreamWrites ℕ ℕ :=
  ⟨[⟨account1,5,"Deposited",5⟩,⟨account2,5,"Deposited",5⟩],
    AList.insert account1 0 (AList.insert account2 0 ∅),by decide⟩

def deposits : ValueForm ℕ ℕ := ⟨fun _ => account1,"Deposited",.ok,.ok⟩

def stamp (n : ℕ) : Stamp := ⟨n,"2024-05-01T12:00:00+00:00",fun k => 100*n+k⟩

def start : World Bool ℕ := ⟨fun r => .create (if r then 2 else 1),[]⟩

abbrev twoCopies : Runs.System (World Bool ℕ) (Action Bool ℕ ℕ ℕ ℕ) := system ℕ ℕ some

theorem start_reachable : Runs.Reachable twoCopies start :=
  .init ⟨rfl,fun r => if r then 2 else 1,by decide,fun _ => rfl⟩

/-- Both copies write offline; the second one takes in the files of the first. -/
def divergeOn (writes : StreamWrites ℕ ℕ) : List (Action Bool ℕ ℕ ℕ ℕ) :=
  [.append false writes (stamp 1),.append true writes (stamp 2),.merge true false]

end TwoCopies

end FileStore
end EventCore
