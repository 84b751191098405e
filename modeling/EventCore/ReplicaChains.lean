import EventCore.ForkSoundness
import EventCore.SharedHistory

/-! Replicas that append, take in each other's files while they are open or closed, and reopen. What
a replica appends goes on top of what it has indexed, whatever else lies in its directory by then. -/
namespace EventCore
namespace ReplicaChains
open FileStore ForkSoundness GraphSearch Runs

variable {Any Raw Value ι : Type}

inductive Action (ι Any Raw : Type)
  | append (r : ι) (writes : StreamWrites Any Raw) (stamp : Stamp)
  | receive (r source : ι)
  | reopen (r : ι)

def step [DecidableEq ι] (parse : Raw → Option Value) (w : World ι Value) :
    Action ι Any Raw → Option (World ι Value)
  | .append r writes stamp =>
    if stamp.transactionId ∈ w.minted then none
    else some
      ⟨Function.update w.replica r (appendEvents parse (w.replica r) stamp writes).2,
        w.minted ++ [stamp.transactionId]⟩
  | .receive r source => some
      ⟨Function.update w.replica r
        { w.replica r with
          files := unionFiles (w.replica r).files (w.replica source).files },w.minted⟩
  | .reopen r => some ⟨Function.update w.replica r (w.replica r).reopen,w.minted⟩

def system [DecidableEq ι] (Any : Type) (parse : Raw → Option Value) :
    System (World ι Value) (Action ι Any Raw) where
  init w := w.minted = [] ∧ ∃ replicaId : ι → Uuid, Function.Injective replicaId ∧
    ∀ r, w.replica r = .create (replicaId r)
  step := step parse

section Copies

variable {minted : List Uuid} {whole : Headers} {store : FileEventStore Value}

/-- A replica of the history `whole`: its directory and its read model are sound parts of it, and
the read model has all transactions that the replica wrote itself. -/
structure CopyOf (minted : List Uuid) (whole : Headers) (store : FileEventStore Value) : Prop where
  disk : Sound minted store.reopen
  part : PartOf (headersOf store.files) whole
  indexed : ∃ seen ⊆ store.files, Sound minted { store with files := seen }
  own : ∀ {id header}, whole.get? id = some header → header.replicaId = store.replicaId →
    id ∈ store.index.headers

variable (h : CopyOf minted whole store)
include h

theorem CopyOf.index_part : PartOf store.index.headers whole := by
  obtain ⟨seen,hseen,hs⟩ := h.indexed
  refine ⟨fun {id header} hget => ?_,fun hp => hs.wellFormed.closed hp⟩
  obtain ⟨t,ht,rfl,rfl⟩ := hs.exists_file hget
  exact h.part.get? (h.disk.get?_of_mem (hseen ht))

theorem CopyOf.index_wellFormed : WellFormed store.index.headers := by
  obtain ⟨_,_,hs⟩ := h.indexed
  exact hs.wellFormed

theorem CopyOf.below_tips {id : Uuid} (hid : id ∈ store.index.headers) :
    Below store.index.headers store.index.tips id := by
  obtain ⟨_,_,hs⟩ := h.indexed
  exact hs.below_tips hid

theorem CopyOf.reopen : CopyOf minted whole store.reopen where
  disk := Sound.of_files h.disk rfl
  part := h.part
  indexed := ⟨store.files,List.Subset.refl _,h.disk⟩
  own {id header} hget hrep := by
    obtain ⟨seen,hseen,hs⟩ := h.indexed
    obtain ⟨header',hget'⟩ := HashMap.exists_of_mem (h.own hget hrep)
    obtain ⟨t,ht,rfl,_⟩ := hs.exists_file hget'
    exact h.disk.mem_headers (hseen ht)

theorem CopyOf.receive {source : FileEventStore Value} (hsource : CopyOf minted whole source) :
    CopyOf minted whole { store with files := unionFiles store.files source.files } where
  disk := Sound.of_files (h.disk.union hsource.disk) rfl
  part := by
    have hunion := h.disk.union hsource.disk
    refine ⟨fun {id header} hget => ?_,fun hp => hunion.wellFormed.closed hp⟩
    obtain ⟨t,ht,rfl,rfl⟩ := hunion.exists_file hget
    rcases List.mem_append.mp ht with ht | ht
    · exact h.part.get? (h.disk.get?_of_mem ht)
    · exact hsource.part.get? (hsource.disk.get?_of_mem (List.mem_filter.mp ht).1)
  indexed := by
    obtain ⟨seen,hseen,hs⟩ := h.indexed
    exact ⟨seen,List.Subset.trans hseen (List.subset_append_left _ _),hs⟩
  own := h.own

theorem CopyOf.mono (ids : List Uuid) : CopyOf (minted ++ ids) whole store where
  disk := h.disk.mono ids
  part := h.part
  indexed := by
    obtain ⟨seen,hseen,hs⟩ := h.indexed
    exact ⟨seen,hseen,hs.mono ids⟩
  own := h.own

theorem CopyOf.extend {header : TransactionHeader} (hnew : header.transactionId ∉ whole)
    (hother : header.replicaId ≠ store.replicaId) : CopyOf minted (FileStore.extend whole header) store where
  disk := h.disk
  part := h.part.extend_whole hnew
  indexed := h.indexed
  own {id header'} hget hrep := by
    rw [HashMap.get?_insert] at hget
    split_ifs at hget
    · exact absurd (Option.some.inj hget ▸ hrep) hother
    · exact h.own hget hrep

theorem CopyOf.commit {t : Transaction Value} (hfresh : t.id ∉ minted)
    (hparents : t.header.parentTransactionIds = store.index.tips)
    (hvalid : ∀ {stream base}, t.header.streamBases.get? stream = some base →
      ∃ streamId : StreamId, streamId.value = stream) :
    CopyOf (minted ++ [t.id]) (FileStore.extend whole t.header) (store.commit t fun _ => [t.id]) := by
  obtain ⟨seen,hseen,hs⟩ := h.indexed
  have hindexed : ∀ p ∈ t.header.parentTransactionIds, p ∈ store.index.headers :=
    fun p hp => hs.tips (hparents ▸ hp)
  have hpresent : ∀ p ∈ t.header.parentTransactionIds, p ∈ headersOf store.files := by
    intro p hp
    obtain ⟨header,hget⟩ := HashMap.exists_of_mem (hindexed p hp)
    obtain ⟨u,hu,rfl,_⟩ := hs.exists_file hget
    exact h.disk.mem_headers (hseen hu)
  refine ⟨?_,?_,⟨seen ++ [t],?_,hs.commit_append hfresh hparents hvalid⟩,?_⟩
  · exact Sound.of_files (h.disk.commit_merge hfresh hpresent hvalid).reopen rfl
  · rw [commit_files,headersOf,List.foldl_concat]
    exact h.part.extend hpresent
  · exact List.append_subset.mpr ⟨List.subset_append_of_subset_left _ hseen,
      List.subset_append_right _ _⟩
  · intro id header hget hrep
    rw [commit_headers]
    rw [HashMap.get?_insert] at hget
    split_ifs at hget with hid
    · exact mem_extend.mpr (.inl hid)
    · exact mem_extend.mpr (.inr (h.own hget hrep))

end Copies

section Histories

/-- All replicas hold parts of one history in which every replica wrote a chain. -/
structure Shared (w : World ι Value) (whole : Headers) : Prop where
  wellFormed : WellFormed whole
  chained : ReplicasChained whole
  drawn : ∀ id ∈ whole, id ∈ w.minted
  copies : ∀ r, CopyOf w.minted whole (w.replica r)
  distinct : Function.Injective fun r => (w.replica r).replicaId

variable {w w' : World ι Value} {whole : Headers} {parse : Raw → Option Value}

theorem Shared.mono (h : Shared w whole) (ids : List Uuid) :
    Shared ⟨w.replica,w.minted ++ ids⟩ whole where
  wellFormed := h.wellFormed
  chained := h.chained
  drawn id hid := List.mem_append_left _ (h.drawn id hid)
  copies r := (h.copies r).mono ids
  distinct := h.distinct

variable [DecidableEq ι]

theorem Shared.distinct_update (h : Shared w whole) {r : ι} {store : FileEventStore Value}
    (hrep : store.replicaId = (w.replica r).replicaId) :
    Function.Injective fun r' => (Function.update w.replica r store r').replicaId := by
  have hsame : ∀ r', (Function.update w.replica r store r').replicaId = (w.replica r').replicaId :=
    update_replicaId hrep
  intro r₁ r₂ he
  exact h.distinct ((hsame r₁).symm.trans (he.trans (hsame r₂)))

theorem Shared.update (h : Shared w whole) (r : ι) {store : FileEventStore Value}
    (hcopy : CopyOf w.minted whole store) (hrep : store.replicaId = (w.replica r).replicaId) :
    Shared ⟨Function.update w.replica r store,w.minted⟩ whole where
  wellFormed := h.wellFormed
  chained := h.chained
  drawn := h.drawn
  copies r' := by
    by_cases hr : r' = r
    · subst hr
      simpa only [Function.update_self] using hcopy
    · simpa only [Function.update_of_ne hr] using h.copies r'
  distinct := h.distinct_update hrep

theorem Shared.commit (h : Shared w whole) {r : ι} {t : Transaction Value} (hfresh : t.id ∉ w.minted)
    (hrep : t.header.replicaId = (w.replica r).replicaId)
    (hparents : t.header.parentTransactionIds = (w.replica r).index.tips)
    (hvalid : ∀ {stream base}, t.header.streamBases.get? stream = some base →
      ∃ streamId : StreamId, streamId.value = stream) :
    Shared ⟨Function.update w.replica r ((w.replica r).commit t fun _ => [t.id]),
      w.minted ++ [t.id]⟩ (extend whole t.header) := by
  have hcopy := h.copies r
  have hnew : t.header.transactionId ∉ whole := fun hm => hfresh (h.drawn _ hm)
  have hpart := hcopy.index_part
  have htips : ∀ p ∈ t.header.parentTransactionIds, p ∈ (w.replica r).index.headers := by
    obtain ⟨_,_,hs⟩ := hcopy.indexed
    exact fun p hp => hs.tips (hparents ▸ hp)
  have hpresent : ∀ p ∈ t.header.parentTransactionIds, p ∈ whole := fun p hp => hpart.mem (htips p hp)
  refine ⟨h.wellFormed.extend hpresent hvalid,?_,?_,?_,?_⟩
  · refine (replicasChained_extend_iff h.wellFormed hnew hpresent).mpr ⟨h.chained,?_⟩
    intro a ha hget ha'
    obtain ⟨p,hp,hanc⟩ := hcopy.below_tips (hcopy.own hget (ha'.trans hrep))
    refine ⟨p,hparents ▸ hp,(hpart.ancestorOrSelf_iff ?_).mpr hanc⟩
    exact htips p (hparents ▸ hp)
  · intro id hid
    rcases mem_extend.mp hid with rfl | hid
    · exact List.mem_append_right _ (List.mem_singleton_self _)
    · exact List.mem_append_left _ (h.drawn id hid)
  · intro r'
    by_cases hr : r' = r
    · subst hr
      simpa only [Function.update_self] using hcopy.commit hfresh hparents hvalid
    · simp only [Function.update_of_ne hr]
      refine ((h.copies r').mono [t.id]).extend hnew ?_
      rw [hrep]
      exact fun he => hr (h.distinct he).symm
  · exact h.distinct_update rfl

theorem Shared.step {l : Action ι Any Raw} (h : Shared w whole)
    (hstep : (system Any parse).step w l = some w') : ∃ whole', Shared w' whole' := by
  cases l with
  | append r writes stamp =>
    simp only [system,ReplicaChains.step] at hstep
    split_ifs at hstep with hfresh
    obtain rfl := Option.some.inj hstep
    rcases appendEvents_store parse (w.replica r) stamp writes with hrun | ⟨t,hprep,hrun⟩
    · rw [hrun,Function.update_eq_self]
      exact ⟨whole,h.mono _⟩
    · obtain ⟨hid,hrep,hparents,_⟩ := prepareAppend_eq_ok hprep
      rw [hrun,← hid]
      exact ⟨_,h.commit (hid ▸ hfresh) hrep hparents (prepareAppend_valid hprep)⟩
  | receive r source =>
    obtain rfl := Option.some.inj hstep
    exact ⟨whole,h.update r ((h.copies r).receive (h.copies source)) rfl⟩
  | reopen r =>
    obtain rfl := Option.some.inj hstep
    exact ⟨whole,h.update r (h.copies r).reopen rfl⟩

theorem shared_of_reachable (hw : Reachable (system Any parse) w) : ∃ whole, Shared w whole := by
  refine ReachableBy.invariant (I := fun w => ∃ whole, Shared w whole) ?_ ?_ hw
  · rintro ⟨replica,minted⟩ ⟨hminted,replicaId,hinj,hcreate⟩
    obtain rfl : minted = [] := hminted
    have hget : ∀ {id header}, (∅ : Headers).get? id = some header → False := by simp
    refine ⟨∅,⟨?_,?_,?_,?_,?_⟩⟩
    · have hs : Sound [] (.create 0 : FileEventStore Value) := Sound.create 0
      exact hs.wellFormed
    · exact fun a b ha hb hga => (hget hga).elim
    · intro id hid
      exact absurd hid (AList.notMem_empty _)
    · intro r
      rw [show (World.mk replica []).replica r = replica r from rfl,
        show replica r = .create (replicaId r) from hcreate r]
      have hs : Sound [] (.create (replicaId r) : FileEventStore Value) := Sound.create (replicaId r)
      exact ⟨hs.reopen,⟨id,fun hp => hs.wellFormed.closed hp⟩,⟨[],List.Subset.refl _,hs⟩,
        fun hga => (hget hga).elim⟩
    · intro r r' he
      refine hinj ?_
      have hid : ∀ r, (replica r).replicaId = replicaId r := fun r => by
        rw [show replica r = .create (replicaId r) from hcreate r]
        rfl
      exact (hid r).symm.trans (he.trans (hid r'))
  · rintro w l w' ⟨whole,h⟩ _ hstep
    exact h.step hstep

end Histories

section Claims

/-- Neither the read model nor the directory of a replica is taken for a collision, and of two
transactions of one replica, wherever they lie, one descends from the other. -/
structure NoCollision (w : World ι Value) : Prop where
  indexed : ∀ r, checkReplicaCollisions (w.replica r).index.headers = .ok ()
  reopened : ∀ r, checkReplicaCollisions (w.replica r).reopen.index.headers = .ok ()
  ordered : ∀ r₁ r₂, ∀ t ∈ (w.replica r₁).files, ∀ u ∈ (w.replica r₂).files,
    t.header.replicaId = u.header.replicaId → t.id ≠ u.id →
      Ancestor (parentsOf (headersOf (w.replica r₂).files)) t.id u.id ∨
      Ancestor (parentsOf (headersOf (w.replica r₁).files)) u.id t.id

/-- What an append writes descends from all that its replica has indexed. -/
def AppendsOnTop [DecidableEq ι] (Any : Type) (parse : Raw → Option Value) (w : World ι Value) :
    Prop :=
  ∀ r (writes : StreamWrites Any Raw) stamp w',
    (system Any parse).step w (.append r writes stamp) = some w' →
    stamp.transactionId ∈ (w'.replica r).index.headers →
      ∀ id ∈ (w.replica r).index.headers,
        Ancestor (parentsOf (w'.replica r).index.headers) id stamp.transactionId

variable {w : World ι Value} {whole : Headers}

theorem Shared.noCollision (h : Shared w whole) : NoCollision w where
  indexed r := by
    have hcopy := h.copies r
    exact (checkReplicaCollisions_eq_ok hcopy.index_wellFormed).mpr
      (hcopy.index_part.replicasChained h.chained)
  reopened r := by
    have hcopy := (h.copies r).reopen
    exact (checkReplicaCollisions_eq_ok hcopy.index_wellFormed).mpr
      (hcopy.index_part.replicasChained h.chained)
  ordered := by
    intro r₁ r₂ t ht u hu hrep hne
    have ht' := (h.copies r₁).disk.get?_of_mem ht
    have hu' := (h.copies r₂).disk.get?_of_mem hu
    have hpart₁ := (h.copies r₁).part
    have hpart₂ := (h.copies r₂).part
    rw [← hpart₂.ancestor_iff (HashMap.mem_of_get? hu'),
      ← hpart₁.ancestor_iff (HashMap.mem_of_get? ht')]
    exact h.chained t.id u.id _ _ (hpart₁.get? ht') (hpart₂.get? hu') hrep hne

theorem Shared.appendsOnTop [DecidableEq ι] (h : Shared w whole) (parse : Raw → Option Value) :
    AppendsOnTop Any parse w := by
  intro r writes stamp w' hstep hwritten id hid
  obtain ⟨_,_,hs⟩ := (h.copies r).indexed
  have hwf := (h.copies r).index_wellFormed
  simp only [system,ReplicaChains.step] at hstep
  split_ifs at hstep with hfresh
  obtain rfl := Option.some.inj hstep
  have hnew : stamp.transactionId ∉ (w.replica r).index.headers := fun hm => hfresh (hs.drawn hm)
  simp only [Function.update_self] at hwritten ⊢
  rcases appendEvents_store parse (w.replica r) stamp writes with hrun | ⟨t,hprep,hrun⟩
  · rw [hrun] at hwritten
    exact absurd hwritten hnew
  · obtain ⟨htid,_,hparents,_⟩ := prepareAppend_eq_ok hprep
    rw [← htid] at hnew ⊢
    rw [hrun,commit_headers]
    refine (ancestor_extend_self hwf hnew ?_).mpr (hparents ▸ hs.below_tips hid)
    exact fun p hp => hs.tips (hparents ▸ hp)

/-- Healthy replicas are never taken for a collision; two concurrent headers of one replica always
are. -/
theorem no_false_collision [DecidableEq ι] {parse : Raw → Option Value} {w : World ι Value}
    (hw : Reachable (system Any parse) w) :
    NoCollision w ∧ AppendsOnTop Any parse w ∧
    ∀ (headers : Headers) (a b : Uuid) (ha hb : TransactionHeader),
      headers.get? a = some ha → headers.get? b = some hb → a ≠ b → ha.replicaId = hb.replicaId →
      Concurrent headers ha.transactionId hb.transactionId →
        ∃ first second replicaId, checkReplicaCollisions headers =
          .error (.replicaIdentityConflict first second replicaId) := by
  obtain ⟨whole,h⟩ := shared_of_reachable hw
  refine ⟨h.noCollision,h.appendsOnTop parse,?_⟩
  intro headers a b ha hb hga hgb hne hrep hconc
  cases hcheck : checkReplicaCollisions headers with
  | ok u =>
    rcases checkReplicaCollisions_iff.mp hcheck a b ha hb hga hgb hrep hne with hanc | hanc
    · exact absurd hanc hconc.1
    · exact absurd hanc hconc.2
  | error e =>
    obtain ⟨first,second,replicaId,rfl⟩ := checkReplicaCollisions_error hcheck
    exact ⟨first,second,replicaId,rfl⟩

end Claims

section Example
open TwoCopies

def depositOther : StreamWrites ℕ ℕ :=
  ⟨[⟨account2,5,"Deposited",5⟩],AList.insert account2 1 ∅,by decide⟩

/-- The second replica takes in the files of the first and appends twice, before and after it
reopens. -/
def receiveAndAppend : List (Action Bool ℕ ℕ) :=
  [.append false openOne (stamp 1),.append true openOther (stamp 2),.receive true false,
    .append true depositOther (stamp 3),.reopen true]

/-- Two working copies of one replica that wrote a transaction each. -/
def copied : Headers :=
  [⟨1,7,[],"2024-05-01T12:00:00+00:00",∅⟩,⟨2,7,[],"2024-05-01T12:00:00+00:00",∅⟩].foldl
    (fun headers header => headers.insert header.transactionId header) ∅

theorem no_false_collision_received : ∃ w,
    exec (system ℕ some) start receiveAndAppend = some w ∧ NoCollision w ∧ AppendsOnTop ℕ some w ∧
    ∃ first second replicaId, checkReplicaCollisions copied =
      .error (.replicaIdentityConflict first second replicaId) := by
  have hrun : (exec (system ℕ some) start receiveAndAppend).isSome = true := by decide +kernel
  obtain ⟨w,hw⟩ := Option.isSome_iff_exists.mp hrun
  have hinit : (system ℕ some).init start :=
    ⟨rfl,fun r => if r then 2 else 1,by decide,fun _ => rfl⟩
  obtain ⟨hnone,htop,hconflict⟩ := no_false_collision (Reachable.exec (.init hinit) hw)
  refine ⟨w,hw,hnone,htop,hconflict copied 1 2 _ _ rfl rfl (by decide) rfl ⟨?_,?_⟩⟩
  · rw [← isAncestor_iff]
    decide
  · rw [← isAncestor_iff]
    decide

end Example

end ReplicaChains
end EventCore
