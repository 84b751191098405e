import EventCore.FileIndex
import EventCore.GraphSearch
import EventCore.Grouping

/-! Fork detection over the transaction graph: replica collisions, groups of transactions that
claim one base of one stream, and the fork each unresolved group is reported as. -/
namespace EventCore
namespace FileStore
open GraphSearch Grouping

inductive FsPath
  | streamName (stream : String) | eventFile (transactionId : Uuid) | root
  deriving DecidableEq

inductive CorruptionDetail
  | invalidStreamId (error : StreamIdError)
  | readFailed
  | branchEventMismatch (error : String)
  | resolutionEventFailed (error : String)
  deriving DecidableEq

inductive FsEventStoreError
  | replicaIdentityConflict (first second replicaId : Uuid)
  | corrupted (path : FsPath) (detail : CorruptionDetail)
  deriving DecidableEq

/-- Concurrent transactions that each extended a stream from the same base version. -/
structure Fork where
  streamId : StreamId
  baseVersion : StreamVersion
  transactions : List Uuid
  deriving DecidableEq

structure DanglingTransaction where
  transactionId : Uuid
  missingParents : List Uuid
  deriving DecidableEq

/-- Every iteration pops one node and only recorded parents are pushed. -/
def isAncestor (ancestor descendant : Uuid) (headers : Headers) : Bool :=
  reaches (parentsOf headers) ancestor ((referenced headers).length+1) descendant

/-- The loop of `is_ancestor` in as many iterations as given; `none` is not at its end yet. -/
def isAncestorWithin (iterations : ℕ) (ancestor descendant : Uuid) (headers : Headers) :
    Option Bool :=
  search (parentsOf headers) ancestor iterations [descendant] ∅

/-- A parent link, which can only be left at a transaction that is in the map. -/
def ParentLink (headers : Headers) (child parent : Uuid) : Prop :=
  ∃ header, headers.get? child = some header ∧ parent ∈ header.parentTransactionIds

def forkIsResolved (heads : List Uuid) (headers : Headers) : Bool :=
  headers.keys.any fun candidate => heads.all fun head => isAncestor head candidate headers

def detectDanglingIn (headers : Headers) : List DanglingTransaction :=
  (headers.entries.filterMap fun p =>
    let missing := p.2.parentTransactionIds.filter fun parent => parent ∉ headers
    if missing = [] then none else some ⟨p.2.transactionId,missing⟩).insertionSort
      fun d e => d.transactionId ≤ e.transactionId

def orderedPairs {α : Type} : List α → List (α × α)
  | [] => []
  | x :: xs => xs.map (x,·) ++ orderedPairs xs

/-- First pair of one replica's transactions of which neither descends from the other. -/
def replicaConflict (headers : Headers) (replica : Uuid × List Uuid) : Option FsEventStoreError :=
  if replica.2.length < 2 then none
  else
    ((orderedPairs (replica.2.insertionSort (· ≤ ·))).find? fun pair =>
        !isAncestor pair.1 pair.2 headers && !isAncestor pair.2 pair.1 headers).map
      fun pair => .replicaIdentityConflict pair.1 pair.2 replica.1

def byReplica (headers : Headers) : List (Uuid × List Uuid) :=
  group (headers.entries.map fun p => (p.2.replicaId,p.2.transactionId))

def checkReplicaCollisions (headers : Headers) : Except FsEventStoreError Unit :=
  match (byReplica headers).findSome? (replicaConflict headers) with
  | some conflict => .error conflict
  | none => .ok ()

/-- Every `(stream, base)` a transaction claims to extend. -/
def streamClaims (headers : Headers) : List ((String ×ₗ ℕ) × Uuid) :=
  headers.entries.flatMap fun p => p.2.streamBases.entries.map fun base =>
    (toLex (base.1,base.2),p.2.transactionId)

def collectForks (headers : Headers) : List ((String ×ₗ ℕ) × List Uuid) →
    Except FsEventStoreError (List Fork)
  | [] => .ok []
  | (key,candidates) :: groups =>
    if candidates.length < 2 then collectForks headers groups
    else if forkIsResolved candidates headers then collectForks headers groups
    else
      match StreamId.tryNew (ofLex key).1 with
      | .error error => .error (.corrupted (.streamName (ofLex key).1) (.invalidStreamId error))
      | .ok streamId => (collectForks headers groups).map
          (⟨streamId,(ofLex key).2,candidates.insertionSort (· ≤ ·)⟩ :: ·)

def detectForksIn (headers : Headers) : Except FsEventStoreError (List Fork) :=
  match checkReplicaCollisions headers with
  | .error error => .error error
  | .ok _ => collectForks headers (group (streamClaims headers))

/-- What every directory of honestly written files satisfies: a header under its own id,
recorded parents present, recorded streams valid identifiers. -/
structure WellFormed (headers : Headers) : Prop where
  keyed : ∀ {id header}, headers.get? id = some header → header.transactionId = id
  closed : ∀ {id parent}, parent ∈ parentsOf headers id → parent ∈ headers
  valid : ∀ {id header}, headers.get? id = some header →
    ∀ {stream base}, header.streamBases.get? stream = some base →
      ∃ streamId : StreamId, streamId.value = stream

def ReplicasChained (headers : Headers) : Prop :=
  ∀ a b ha hb, headers.get? a = some ha → headers.get? b = some hb →
    ha.replicaId = hb.replicaId → a ≠ b →
      Ancestor (parentsOf headers) a b ∨ Ancestor (parentsOf headers) b a

/-- Transaction `id` claims to extend `stream` from `base`. -/
def Extending (headers : Headers) (stream : String) (base : ℕ) (id : Uuid) : Prop :=
  ∃ header, headers.get? id = some header ∧ header.streamBases.get? stream = some base

/-- Several transactions extend the base and nothing descends from all of them. -/
def Forked (headers : Headers) (stream : String) (base : ℕ) : Prop :=
  (∃ a b, a ≠ b ∧ Extending headers stream base a ∧ Extending headers stream base b) ∧
  ∀ c ∈ headers, ∃ a, Extending headers stream base a ∧ ¬ Ancestor (parentsOf headers) a c

section Ancestors

theorem parent_referenced (headers : Headers) (child parent : Uuid)
    (h : parent ∈ parentsOf headers child) : parent ∈ (referenced headers).toFinset :=
  List.mem_toFinset.mpr (mem_referenced.mpr ⟨child,h⟩)

theorem card_referenced_le (headers : Headers) :
    (referenced headers).toFinset.card+1 ≤ (referenced headers).length+1 :=
  Nat.succ_le_succ (List.toFinset_card_le _)

theorem isAncestor_iff {a d : Uuid} {headers : Headers} :
    isAncestor a d headers = true ↔ Ancestor (parentsOf headers) a d :=
  reaches_iff _ (parent_referenced headers) (card_referenced_le headers)

theorem isAncestorWithin_eq {iterations : ℕ} {headers : Headers}
    (h : (referenced headers).length+1 ≤ iterations) (a d : Uuid) :
    isAncestorWithin iterations a d headers = some (isAncestor a d headers) :=
  search_eq_reaches _ _ (parent_referenced headers) (card_referenced_le headers) h d

theorem parentLink_iff {headers : Headers} {child parent : Uuid} :
    ParentLink headers child parent ↔ parent ∈ parentsOf headers child := by
  unfold ParentLink parentsOf
  cases headers.get? child with
  | none => simp
  | some header => simp

/-- The search ends, after as many iterations as there are recorded parents and one more at the
latest, and answers whether a path of parent links leads from `d` to `a`: also where the links
go round in circles, repeat a parent, or name one that is not in the map. -/
theorem isAncestor_decides (headers : Headers) (a d : Uuid) :
    (∀ iterations, (referenced headers).length+1 ≤ iterations →
      isAncestorWithin iterations a d headers = some (isAncestor a d headers)) ∧
    (isAncestor a d headers = true ↔ Relation.TransGen (ParentLink headers) d a) := by
  refine ⟨fun iterations h => isAncestorWithin_eq h a d,?_⟩
  have hlinks : ParentLink headers = fun child parent => parent ∈ parentsOf headers child := by
    funext child parent
    exact propext parentLink_iff
  rw [isAncestor_iff,Ancestor,hlinks]

/-- Two transactions that name each other, one of them twice and beside a parent that is not in
the map. -/
def cyclicHeaders : Headers :=
  headersOf ([⟨⟨1,9,[2,2,7],"",∅⟩,[]⟩,⟨⟨2,9,[1],"",∅⟩,[]⟩] : List (Transaction ℕ))

theorem isAncestor_decides_cyclic :
    isAncestorWithin 5 1 1 cyclicHeaders = some true ∧
      Relation.TransGen (ParentLink cyclicHeaders) 2 7 ∧
      ¬Relation.TransGen (ParentLink cyclicHeaders) 7 1 := by
  have h := isAncestor_decides cyclicHeaders
  refine ⟨?_,(h 7 2).2.mp (by decide),fun hpath => absurd ((h 1 7).2.mpr hpath) (by decide)⟩
  exact ((h 1 1).1 5 (by decide)).trans (by decide)

theorem forkIsResolved_iff {heads : List Uuid} {headers : Headers} :
    forkIsResolved heads headers = true ↔
      ∃ c ∈ headers, ∀ a ∈ heads, Ancestor (parentsOf headers) a c := by
  simp [forkIsResolved,isAncestor_iff,AList.mem_keys]

end Ancestors

section Collisions

theorem forall_orderedPairs {α : Type} {l : List α} {R : α → α → Prop} :
    (∀ p ∈ orderedPairs l, R p.1 p.2) ↔ l.Pairwise R := by
  induction l with
  | nil => simp [orderedPairs]
  | cons x xs ih =>
    rw [List.pairwise_cons,← ih]
    simp only [orderedPairs,List.mem_append,List.mem_map]
    constructor
    · intro h
      exact ⟨fun y hy => h (x,y) (.inl ⟨y,hy,rfl⟩),fun p hp => h p (.inr hp)⟩
    · rintro ⟨hx,hxs⟩ p (⟨y,hy,rfl⟩ | hp)
      · exact hx y hy
      · exact hxs p hp

def InLine (headers : Headers) (a b : Uuid) : Prop :=
  Ancestor (parentsOf headers) a b ∨ Ancestor (parentsOf headers) b a

theorem InLine.symm {headers : Headers} {a b : Uuid} (h : InLine headers a b) :
    InLine headers b a := Or.symm h

theorem replicaConflict_eq_none {headers : Headers} {replicaId : Uuid} {ids : List Uuid} :
    replicaConflict headers (replicaId,ids) = none ↔ ids.Pairwise (InLine headers) := by
  have hsorted : (ids.insertionSort (· ≤ ·)).Pairwise (InLine headers) ↔
      ids.Pairwise (InLine headers) :=
    (List.perm_insertionSort _ _).pairwise_iff InLine.symm
  rw [← hsorted,← forall_orderedPairs]
  unfold replicaConflict
  split_ifs with hlen
  · refine iff_of_true rfl (forall_orderedPairs.mpr (hsorted.mpr ?_))
    match ids,hlen with
    | [],_ => exact .nil
    | [x],_ => exact List.pairwise_singleton _ x
  · simp only [Option.map_eq_none_iff,List.find?_eq_none,Bool.and_eq_true,Bool.not_eq_true',
      ← Bool.not_eq_true,isAncestor_iff,InLine]
    refine forall_congr' fun p => forall_congr' fun _ => ?_
    tauto

/-- Whatever the header map, the check passes exactly when of any two headers of one replica one
descends from the other. -/
theorem checkReplicaCollisions_iff {headers : Headers} :
    checkReplicaCollisions headers = .ok () ↔
      ∀ a b ha hb, headers.get? a = some ha → headers.get? b = some hb →
        ha.replicaId = hb.replicaId → a ≠ b → InLine headers ha.transactionId hb.transactionId := by
  have hnone : checkReplicaCollisions headers = .ok () ↔
      ∀ g ∈ byReplica headers, replicaConflict headers g = none := by
    unfold checkReplicaCollisions
    cases h : (byReplica headers).findSome? (replicaConflict headers) with
    | none => simpa using List.findSome?_eq_none_iff.mp h
    | some e =>
      obtain ⟨g,hg,hge⟩ := List.exists_of_findSome?_eq_some h
      simp only [reduceCtorEq,false_iff,not_forall]
      exact ⟨g,hg,by simp [hge]⟩
  have hgroups : (∀ g ∈ byReplica headers, replicaConflict headers g = none) ↔
      ∀ g ∈ byReplica headers, g.2.Pairwise (InLine headers) :=
    forall_congr' fun _ => forall_congr' fun _ => replicaConflict_eq_none
  rw [hnone,hgroups,byReplica,forall_group_pairwise,List.pairwise_map]
  constructor
  · intro hpair a b ha hb hga hgb hrep hne
    have hmem : ∀ {id h}, headers.get? id = some h → ⟨id,h⟩ ∈ headers.entries :=
      HashMap.mem_entries_iff.mpr
    have : Std.Symm fun p q : Sigma fun _ : Uuid => TransactionHeader =>
        p.2.replicaId = q.2.replicaId → InLine headers p.2.transactionId q.2.transactionId :=
      ⟨fun p q h hrep => (h hrep.symm).symm⟩
    exact hpair.forall (hmem hga) (hmem hgb) (fun he => hne (congrArg Sigma.fst he)) hrep
  · intro hall
    refine headers.nodupKeys.nodup.pairwise_of_forall_ne ?_
    rintro ⟨a,ha⟩ hma ⟨b,hb⟩ hmb hne hrep
    have hga := HashMap.mem_entries_iff.mp hma
    have hgb := HashMap.mem_entries_iff.mp hmb
    refine hall a b ha hb hga hgb hrep ?_
    rintro rfl
    exact hne (by rw [Option.some.inj (hga.symm.trans hgb)])

theorem checkReplicaCollisions_error {headers : Headers} {e : FsEventStoreError}
    (h : checkReplicaCollisions headers = .error e) :
    ∃ first second replicaId, e = .replicaIdentityConflict first second replicaId := by
  unfold checkReplicaCollisions at h
  cases hfind : (byReplica headers).findSome? (replicaConflict headers) with
  | none => simp [hfind] at h
  | some conflict =>
    rw [hfind] at h
    obtain rfl := Except.error.inj h
    obtain ⟨g,_,hg⟩ := List.exists_of_findSome?_eq_some hfind
    unfold replicaConflict at hg
    split_ifs at hg
    obtain ⟨pair,_,rfl⟩ := Option.map_eq_some_iff.mp hg
    exact ⟨_,_,_,rfl⟩

variable {headers : Headers} (hwf : WellFormed headers)
include hwf

theorem transactionIds_nodup : (headers.entries.map fun p => p.2.transactionId).Nodup := by
  have hkeys : (headers.entries.map fun p => p.2.transactionId) = headers.keys := by
    refine List.map_congr_left ?_
    rintro ⟨k,header⟩ hmem
    exact hwf.keyed (HashMap.mem_entries_iff.mp hmem)
  rw [hkeys]
  exact headers.nodupKeys

theorem checkReplicaCollisions_eq_ok :
    checkReplicaCollisions headers = .ok () ↔ ReplicasChained headers := by
  rw [checkReplicaCollisions_iff,ReplicasChained]
  refine forall₄_congr fun a b ha hb => forall₂_congr fun hga hgb => ?_
  rw [InLine,hwf.keyed hga,hwf.keyed hgb]

end Collisions

section Forks

variable {headers : Headers}

def candidatesOf (headers : Headers) (stream : String) (base : ℕ) : List Uuid :=
  values (streamClaims headers) (toLex (stream,base))

theorem mem_candidatesOf_iff {stream : String} {base : ℕ} {id : Uuid} :
    id ∈ candidatesOf headers stream base ↔ ∃ key header, headers.get? key = some header ∧
      header.transactionId = id ∧ header.streamBases.get? stream = some base := by
  simp only [candidatesOf,mem_values,streamClaims,List.mem_flatMap,List.mem_map,Prod.mk.injEq,
    EmbeddingLike.apply_eq_iff_eq]
  constructor
  · rintro ⟨⟨k,header⟩,hmem,⟨s,b⟩,hbase,⟨rfl,rfl⟩,hid⟩
    exact ⟨k,header,HashMap.mem_entries_iff.mp hmem,hid,HashMap.mem_entries_iff.mp hbase⟩
  · rintro ⟨k,header,hget,hid,hbase⟩
    exact ⟨⟨k,header⟩,HashMap.mem_entries_iff.mpr hget,⟨stream,base⟩,
      HashMap.mem_entries_iff.mpr hbase,⟨rfl,rfl⟩,hid⟩

theorem mem_candidatesOf (hwf : WellFormed headers) {stream : String} {base : ℕ} {id : Uuid} :
    id ∈ candidatesOf headers stream base ↔ Extending headers stream base id := by
  rw [mem_candidatesOf_iff]
  constructor
  · rintro ⟨k,header,hget,hid,hbase⟩
    obtain rfl : k = id := (hwf.keyed hget).symm.trans hid
    exact ⟨header,hget,hbase⟩
  · rintro ⟨header,hget,hbase⟩
    exact ⟨id,header,hget,hwf.keyed hget,hbase⟩

theorem streamClaims_nodup (hwf : WellFormed headers) : (streamClaims headers).Nodup := by
  refine List.nodup_flatMap.mpr ⟨?_,?_⟩
  · rintro ⟨k,header⟩ _
    refine List.Nodup.map ?_ header.streamBases.nodupKeys.nodup
    rintro ⟨s,b⟩ ⟨s',b'⟩ h
    simp only [Prod.mk.injEq,EmbeddingLike.apply_eq_iff_eq,and_true] at h
    rw [h.1,h.2]
  · have hids : headers.entries.Pairwise fun p q => p.2.transactionId ≠ q.2.transactionId :=
      List.pairwise_map.mp (transactionIds_nodup hwf)
    refine hids.imp ?_
    rintro p q hne
    simp only [Function.onFun,List.disjoint_left,List.mem_map,not_exists,not_and]
    rintro x ⟨_,_,rfl⟩ y _ hy
    exact hne (congrArg Prod.snd hy).symm

theorem candidatesOf_nodup (hwf : WellFormed headers) (stream : String) (base : ℕ) :
    (candidatesOf headers stream base).Nodup := values_nodup (streamClaims_nodup hwf) _

theorem forked_iff (hwf : WellFormed headers) {stream : String} {base : ℕ} :
    Forked headers stream base ↔
      ¬ (candidatesOf headers stream base).length < 2 ∧
      forkIsResolved (candidatesOf headers stream base) headers = false := by
  rw [← Bool.not_eq_true,forkIsResolved_iff,Forked]
  have hunresolved : (¬ ∃ c ∈ headers, ∀ a ∈ candidatesOf headers stream base,
      Ancestor (parentsOf headers) a c) ↔ ∀ c ∈ headers, ∃ a, Extending headers stream base a ∧
        ¬ Ancestor (parentsOf headers) a c := by
    simp [mem_candidatesOf hwf]
  rw [hunresolved]
  refine and_congr_left fun _ => ?_
  constructor
  · rintro ⟨a,b,hne,ha,hb⟩ hlen
    have hma := (mem_candidatesOf hwf).mpr ha
    have hmb := (mem_candidatesOf hwf).mpr hb
    match hc : candidatesOf headers stream base,hlen with
    | [],_ => simp [hc] at hma
    | [x],_ => simp only [hc,List.mem_singleton] at hma hmb; exact hne (hma.trans hmb.symm)
  · intro hlen
    have hnodup := candidatesOf_nodup hwf stream base
    match hc : candidatesOf headers stream base with
    | [] => simp [hc] at hlen
    | [x] => simp [hc] at hlen
    | x :: y :: rest =>
      rw [hc] at hnodup
      have hxy : x ≠ y := by
        intro he
        exact (List.nodup_cons.mp hnodup).1 (he ▸ List.mem_cons_self)
      exact ⟨x,y,hxy,(mem_candidatesOf hwf).mp (by simp [hc]),(mem_candidatesOf hwf).mp (by simp [hc])⟩

def IsForkOf (headers : Headers) (f : Fork) : Prop :=
  Forked headers f.streamId.value f.baseVersion ∧
  f.transactions = (candidatesOf headers f.streamId.value f.baseVersion).insertionSort (· ≤ ·)

theorem collectForks_spec {groups : List ((String ×ₗ ℕ) × List Uuid)}
    (hvalid : ∀ g ∈ groups, ∃ streamId : StreamId, streamId.value = (ofLex g.1).1)
    (hkeys : (groups.map Prod.fst).Nodup) :
    ∃ forks, collectForks headers groups = .ok forks ∧ forks.Nodup ∧
      ∀ f : Fork, f ∈ forks ↔ ∃ g ∈ groups, g.1 = toLex (f.streamId.value,f.baseVersion) ∧
        ¬ g.2.length < 2 ∧ forkIsResolved g.2 headers = false ∧
        f.transactions = g.2.insertionSort (· ≤ ·) := by
  induction groups with
  | nil => exact ⟨[],rfl,List.nodup_nil,by simp⟩
  | cons g groups ih =>
    obtain ⟨key,candidates⟩ := g
    obtain ⟨⟨streamId,hstream⟩,hvalid⟩ := List.forall_mem_cons.mp hvalid
    rw [List.map_cons,List.nodup_cons] at hkeys
    obtain ⟨forks,hrun,hnodup,hmem⟩ := ih hvalid hkeys.2
    simp only [collectForks,List.exists_mem_cons_iff]
    split_ifs with hlen hres
    · exact ⟨forks,hrun,hnodup,fun f => by simp [hmem,hlen]⟩
    · exact ⟨forks,hrun,hnodup,fun f => by simp [hmem,hres]⟩
    · rw [← hstream,StreamId.tryNew_value]
      refine ⟨_,by rw [hrun]; rfl,?_,fun f => ?_⟩
      · refine List.nodup_cons.mpr ⟨fun hf => hkeys.1 ?_,hnodup⟩
        obtain ⟨g,hg,hkey,_⟩ := (hmem _).mp hf
        rw [hstream] at hkey
        exact List.mem_map.mpr ⟨g,hg,hkey⟩
      · rw [List.mem_cons,hmem]
        refine or_congr ?_ Iff.rfl
        constructor
        · rintro rfl
          exact ⟨by rw [hstream]; rfl,hlen,Bool.eq_false_iff.mpr hres,rfl⟩
        · rintro ⟨hkey,_,_,htransactions⟩
          obtain ⟨fs,fb,ft⟩ := f
          subst hkey
          obtain rfl : fs = streamId := StreamId.value_injective hstream.symm
          obtain rfl := htransactions
          rfl

theorem detectForksIn_ok
    (hvalid : ∀ {id header}, headers.get? id = some header →
      ∀ {stream base}, header.streamBases.get? stream = some base →
        ∃ streamId : StreamId, streamId.value = stream)
    (hcheck : checkReplicaCollisions headers = .ok ()) :
    ∃ forks, detectForksIn headers = .ok forks ∧ forks.Nodup ∧ ∀ f : Fork, f ∈ forks ↔
      ¬ (candidatesOf headers f.streamId.value f.baseVersion).length < 2 ∧
      forkIsResolved (candidatesOf headers f.streamId.value f.baseVersion) headers = false ∧
      f.transactions =
        (candidatesOf headers f.streamId.value f.baseVersion).insertionSort (· ≤ ·) := by
  have hgroups : ∀ g ∈ group (streamClaims headers),
      ∃ streamId : StreamId, streamId.value = (ofLex g.1).1 := by
    rintro ⟨key,candidates⟩ hg
    obtain ⟨_,id,hid⟩ := mem_group.mp hg
    have hclaim : id ∈ candidatesOf headers (ofLex key).1 (ofLex key).2 := mem_values.mpr hid
    obtain ⟨_,_,hget,_,hbase⟩ := mem_candidatesOf_iff.mp hclaim
    exact hvalid hget hbase
  obtain ⟨forks,hrun,hnodup,hmem⟩ := collectForks_spec hgroups (group_keys_nodup _)
  refine ⟨forks,by rw [detectForksIn,hcheck]; exact hrun,hnodup,fun f => ?_⟩
  rw [hmem]
  constructor
  · rintro ⟨⟨key,candidates⟩,hg,rfl,hgroup⟩
    rwa [(mem_group.mp hg).1] at hgroup
  · intro hgroup
    refine ⟨(_,candidatesOf headers f.streamId.value f.baseVersion),mem_group.mpr ⟨rfl,?_⟩,rfl,
      hgroup⟩
    have hpos : 0 < (candidatesOf headers f.streamId.value f.baseVersion).length := by omega
    obtain ⟨id,hid⟩ := List.exists_mem_of_length_pos hpos
    exact ⟨id,mem_values.mp hid⟩

/-- On well-formed headers detection fails only on a replica collision, and otherwise
reports exactly the unresolved groups, each once. -/
theorem detectForksIn_spec (hwf : WellFormed headers) :
    (¬ ReplicasChained headers ∧
      ∃ first second replicaId, detectForksIn headers =
        .error (.replicaIdentityConflict first second replicaId)) ∨
    (ReplicasChained headers ∧ ∃ forks, detectForksIn headers = .ok forks ∧ forks.Nodup ∧
      ∀ f, f ∈ forks ↔ IsForkOf headers f) := by
  by_cases hchain : ReplicasChained headers
  · right
    obtain ⟨forks,hrun,hnodup,hmem⟩ :=
      detectForksIn_ok hwf.valid ((checkReplicaCollisions_eq_ok hwf).mpr hchain)
    refine ⟨hchain,forks,hrun,hnodup,fun f => ?_⟩
    rw [hmem,IsForkOf,forked_iff hwf,and_assoc]
  · left
    refine ⟨hchain,?_⟩
    cases hcheck : checkReplicaCollisions headers with
    | ok u => exact absurd ((checkReplicaCollisions_eq_ok hwf).mp hcheck) hchain
    | error e =>
      obtain ⟨first,second,replicaId,rfl⟩ := checkReplicaCollisions_error hcheck
      exact ⟨first,second,replicaId,by rw [detectForksIn,hcheck]⟩

theorem detectForksIn_eq_ok (hwf : WellFormed headers) {forks : List Fork}
    (h : detectForksIn headers = .ok forks) :
    ReplicasChained headers ∧ ∀ f, f ∈ forks ↔ IsForkOf headers f := by
  rcases detectForksIn_spec hwf with ⟨_,_,_,_,herr⟩ | ⟨hchain,forks',hrun,_,hmem⟩
  · cases herr.symm.trans h
  · obtain rfl := Except.ok.inj (hrun.symm.trans h)
    exact ⟨hchain,hmem⟩

theorem detectForksIn_eq_nil (hwf : WellFormed headers) :
    detectForksIn headers = .ok [] ↔
      ReplicasChained headers ∧ ∀ stream base, ¬ Forked headers stream base := by
  rcases detectForksIn_spec hwf with ⟨hnot,_,_,_,herr⟩ | ⟨hchain,forks,hrun,_,hmem⟩
  · simp [herr,hnot]
  · rw [hrun]
    simp only [Except.ok.injEq,hchain,true_and]
    constructor
    · rintro rfl stream base hf
      obtain ⟨⟨a,_,_,⟨header,hget,hbase⟩,_⟩,_⟩ := id hf
      obtain ⟨streamId,rfl⟩ := hwf.valid hget hbase
      let f : Fork := ⟨streamId,base,(candidatesOf headers streamId.value base).insertionSort (· ≤ ·)⟩
      exact absurd ((hmem f).mpr ⟨hf,rfl⟩) (by simp)
    · intro hnone
      exact List.eq_nil_iff_forall_not_mem.mpr fun f hf => hnone _ _ ((hmem f).mp hf).1

end Forks

end FileStore
end EventCore
