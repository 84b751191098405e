import EventCore.FileIndex
import EventCore.GraphSearch
import EventCore.Grouping
import Mathlib.Data.List.Chain

/-! The canonical order of any acyclic set of transactions: a topological order, and a function of
the set alone. Depths are computed with a memo that is passed along. -/
namespace EventCore
namespace FileStore
open GraphSearch Grouping

variable {Value : Type}

section Memo

/-- `transaction_depth` with its memo. On an acyclic set the fuel does not run out. -/
def transactionDepthMemo (headers : Headers) : ℕ → Uuid → HashMap Uuid ℕ → ℕ × HashMap Uuid ℕ
  | 0, _, memo => (0,memo)
  | fuel + 1, id, memo =>
    match memo.get? id with
    | some depth => (depth,memo)
    | none =>
      let (depth,memo) :=
        match headers.get? id with
        | none => (0,memo)
        | some header =>
          header.parentTransactionIds.foldl (fun (best,memo) parent =>
            if parent ∈ headers then
              let (depth,memo) := transactionDepthMemo headers fuel parent memo
              (max best (depth+1),memo)
            else (best,memo)) (0,memo)
      (depth,memo.insert id depth)

/-- The keys to sort by, collected over the header map in its iteration order. -/
def keyedHeaders (headers : Headers) : List (Uuid × ℕ ×ₗ String ×ₗ Uuid ×ₗ Uuid) :=
  (headers.entries.foldl (fun (keyed,memo) p =>
    let (depth,memo) := transactionDepthMemo headers headers.keys.length p.1 memo
    (keyed ++ [(p.1,toLex (depth,toLex (p.2.createdAt,toLex (p.2.replicaId,p.1))))],memo))
    (([] : List (Uuid × ℕ ×ₗ String ×ₗ Uuid ×ₗ Uuid)),(∅ : HashMap Uuid ℕ))).1

/-- `linearize` as it is computed. -/
def linearizeMemo (headers : Headers) : List Uuid :=
  ((keyedHeaders headers).insertionSort fun p q => p.2 ≤ q.2).map Prod.fst

end Memo

def Acyclic (headers : Headers) : Prop := ∀ id, ¬ Ancestor (parentsOf headers) id id

def depth (headers : Headers) (id : Uuid) : ℕ := transactionDepth headers headers.keys.length id

def depthOver (headers : Headers) (depthOf : Uuid → ℕ) (parents : List Uuid) : ℕ :=
  parents.foldl (fun best parent => if parent ∈ headers then max best (depthOf parent + 1) else best) 0

section Depth

variable {headers : Headers}

theorem foldl_depthOf_congr {depthOf depthOf' : Uuid → ℕ} {parents : List Uuid} (best : ℕ)
    (h : ∀ parent ∈ parents, parent ∈ headers → depthOf parent = depthOf' parent) :
    parents.foldl (fun best parent =>
      if parent ∈ headers then max best (depthOf parent + 1) else best) best =
    parents.foldl (fun best parent =>
      if parent ∈ headers then max best (depthOf' parent + 1) else best) best := by
  induction parents generalizing best with
  | nil => rfl
  | cons parent parents ih =>
    obtain ⟨hparent,hparents⟩ := List.forall_mem_cons.mp h
    rw [List.foldl_cons,List.foldl_cons,ih _ hparents]
    by_cases hmem : parent ∈ headers
    · rw [if_pos hmem,if_pos hmem,hparent hmem]
    · rw [if_neg hmem,if_neg hmem]

theorem le_foldl_depthOf (depthOf : Uuid → ℕ) (parents : List Uuid) (best : ℕ) :
    best ≤ parents.foldl (fun best parent =>
      if parent ∈ headers then max best (depthOf parent + 1) else best) best := by
  induction parents generalizing best with
  | nil => exact le_rfl
  | cons parent parents ih =>
    refine le_trans ?_ (ih _)
    by_cases hmem : parent ∈ headers
    · simp [hmem]
    · simp [hmem]

theorem depth_lt_depthOver {depthOf : Uuid → ℕ} {parents : List Uuid} {parent : Uuid}
    (hparent : parent ∈ parents) (hmem : parent ∈ headers) :
    depthOf parent < depthOver headers depthOf parents := by
  obtain ⟨before,after,rfl⟩ := List.append_of_mem hparent
  unfold depthOver
  rw [List.foldl_append,List.foldl_cons,if_pos hmem]
  refine lt_of_lt_of_le (Nat.lt_succ_self _) (le_trans ?_ (le_foldl_depthOf depthOf after _))
  exact le_max_right _ _

theorem depthOver_congr {headers' : Headers} {depthOf depthOf' : Uuid → ℕ} {parents : List Uuid}
    (hmem : ∀ parent ∈ parents, parent ∈ headers) (hmem' : ∀ parent ∈ parents, parent ∈ headers')
    (h : ∀ parent ∈ parents, depthOf' parent = depthOf parent) :
    depthOver headers' depthOf' parents = depthOver headers depthOf parents := by
  have hgen : ∀ best, parents.foldl (fun best parent =>
        if parent ∈ headers' then max best (depthOf' parent + 1) else best) best =
      parents.foldl (fun best parent =>
        if parent ∈ headers then max best (depthOf parent + 1) else best) best := by
    induction parents with
    | nil => exact fun _ => rfl
    | cons parent parents ih =>
      intro best
      obtain ⟨hp,hps⟩ := List.forall_mem_cons.mp hmem
      obtain ⟨hp',hps'⟩ := List.forall_mem_cons.mp hmem'
      obtain ⟨heq,heqs⟩ := List.forall_mem_cons.mp h
      rw [List.foldl_cons,List.foldl_cons,if_pos hp,if_pos hp',heq]
      exact ih hps hps' heqs _
  exact hgen 0

theorem mem_keys_toFinset {id : Uuid} : id ∈ headers.keys.toFinset ↔ id ∈ headers :=
  List.mem_toFinset.trans AList.mem_keys.symm

/-- A measure below the number of headers that rises from a parent to its children. -/
structure Rank (headers : Headers) (rank : Uuid → ℕ) : Prop where
  link : ∀ id parent, parent ∈ parentsOf headers id → parent ∈ headers → rank parent < rank id
  bound : ∀ id ∈ headers, rank id < headers.keys.length

theorem Acyclic.exists_rank (h : Acyclic headers) : ∃ rank, Rank headers rank := by
  obtain ⟨rank,hlink,hbound⟩ := GraphSearch.exists_rank h headers.keys.toFinset
  refine ⟨rank,fun id parent hparent hmem => hlink id parent hparent (mem_keys_toFinset.mpr hmem),
    fun id hid => (hbound id (mem_keys_toFinset.mpr hid)).trans_le ?_⟩
  exact List.toFinset_card_le _

theorem Rank.transactionDepth_succ {rank : Uuid → ℕ} (h : Rank headers rank) {fuel : ℕ} {id : Uuid}
    (hfuel : rank id < fuel) :
    transactionDepth headers (fuel+1) id = transactionDepth headers fuel id := by
  induction fuel generalizing id with
  | zero => cases hfuel
  | succ fuel ih =>
    refine foldl_depthOf_congr 0 fun parent hparent hmem => ih ?_
    have hlt := h.link id parent hparent hmem
    omega

theorem linearKey_eq {id : Uuid} {header : TransactionHeader}
    (h : headers.get? id = some header) : linearKey headers id =
      toLex (depth headers id,toLex (header.createdAt,toLex (header.replicaId,id))) := by
  rw [linearKey,h]
  rfl

theorem depth_eq (hacyclic : Acyclic headers) (id : Uuid) :
    depth headers id = depthOver headers (depth headers) (parentsOf headers id) := by
  obtain ⟨rank,hrank⟩ := hacyclic.exists_rank
  by_cases hid : id ∈ headers
  · unfold depth
    rw [← hrank.transactionDepth_succ (hrank.bound id hid)]
    rfl
  · have hnone : parentsOf headers id = [] := by
      rw [parentsOf,HashMap.get?_eq_none_iff.mpr hid]
    unfold depth depthOver
    rw [hnone]
    cases headers.keys.length with
    | zero => rfl
    | succ fuel =>
      rw [transactionDepth,hnone]
      rfl

theorem depth_parent_lt (hacyclic : Acyclic headers) {id parent : Uuid}
    (hparent : parent ∈ parentsOf headers id) (hmem : parent ∈ headers) :
    depth headers parent < depth headers id := by
  rw [depth_eq hacyclic id]
  exact depth_lt_depthOver hparent hmem

def MemoSound (headers : Headers) (memo : HashMap Uuid ℕ) : Prop :=
  ∀ id found, memo.get? id = some found → found = depth headers id

theorem MemoSound.insert {memo : HashMap Uuid ℕ} (h : MemoSound headers memo) (id : Uuid) :
    MemoSound headers (memo.insert id (depth headers id)) := by
  intro id' found hget
  rw [HashMap.get?_insert] at hget
  by_cases hid : id' = id
  · rw [if_pos hid] at hget
    rw [hid,← Option.some.inj hget]
  · rw [if_neg hid] at hget
    exact h id' found hget

theorem foldl_memo {recurse : Uuid → HashMap Uuid ℕ → ℕ × HashMap Uuid ℕ} {parents : List Uuid}
    (hrecurse : ∀ parent ∈ parents, parent ∈ headers → ∀ memo, MemoSound headers memo →
      (recurse parent memo).1 = depth headers parent ∧ MemoSound headers (recurse parent memo).2)
    (best : ℕ) {memo : HashMap Uuid ℕ} (hmemo : MemoSound headers memo) :
    let walked := parents.foldl (fun (best,memo) parent =>
      if parent ∈ headers then
        let (depth,memo) := recurse parent memo
        (max best (depth+1),memo)
      else (best,memo)) (best,memo)
    walked.1 = parents.foldl (fun best parent =>
      if parent ∈ headers then max best (depth headers parent + 1) else best) best ∧
      MemoSound headers walked.2 := by
  induction parents generalizing best memo with
  | nil => exact ⟨rfl,hmemo⟩
  | cons parent parents ih =>
    obtain ⟨hparent,hparents⟩ := List.forall_mem_cons.mp hrecurse
    simp only [List.foldl_cons]
    by_cases hmem : parent ∈ headers
    · obtain ⟨hdepth,hsound⟩ := hparent hmem memo hmemo
      simp only [if_pos hmem,hdepth]
      exact ih hparents _ hsound
    · simp only [if_neg hmem]
      exact ih hparents _ hmemo

theorem transactionDepthMemo_spec (hacyclic : Acyclic headers) {rank : Uuid → ℕ}
    (hrank : Rank headers rank) {fuel : ℕ} {id : Uuid} {memo : HashMap Uuid ℕ}
    (hfuel : rank id < fuel) (hmemo : MemoSound headers memo) :
    (transactionDepthMemo headers fuel id memo).1 = depth headers id ∧
      MemoSound headers (transactionDepthMemo headers fuel id memo).2 := by
  induction fuel generalizing id memo with
  | zero => cases hfuel
  | succ fuel ih =>
    unfold transactionDepthMemo
    cases hget : memo.get? id with
    | some found => exact ⟨hmemo id found hget,hmemo⟩
    | none =>
      cases hheader : headers.get? id with
      | none =>
        have hzero : depth headers id = 0 := by
          rw [depth_eq hacyclic,parentsOf,hheader]
          rfl
        have hinsert := hmemo.insert id
        rw [hzero] at hinsert
        exact ⟨hzero.symm,hinsert⟩
      | some header =>
        have hparents : parentsOf headers id = header.parentTransactionIds := by
          rw [parentsOf,hheader]
        have hrecurse : ∀ parent ∈ header.parentTransactionIds, parent ∈ headers →
            ∀ memo, MemoSound headers memo →
              (transactionDepthMemo headers fuel parent memo).1 = depth headers parent ∧
              MemoSound headers (transactionDepthMemo headers fuel parent memo).2 := by
          intro parent hparent hmem memo hmemo
          have hlt := hrank.link id parent (hparents ▸ hparent) hmem
          exact ih (by omega) hmemo
        have hwalk := foldl_memo hrecurse 0 hmemo
        have hdepth := depth_eq hacyclic id
        rw [hparents] at hdepth
        obtain ⟨hfirst,hsecond⟩ := hwalk
        have hinsert := hsecond.insert id
        rw [hdepth] at hinsert ⊢
        refine ⟨hfirst,?_⟩
        simp only
        rw [hfirst]
        exact hinsert

theorem foldl_keyed (hacyclic : Acyclic headers)
    {entries : List (Sigma fun _ : Uuid => TransactionHeader)}
    (hentries : ∀ p ∈ entries, headers.get? p.1 = some p.2)
    (keyed : List (Uuid × ℕ ×ₗ String ×ₗ Uuid ×ₗ Uuid)) {memo : HashMap Uuid ℕ}
    (hmemo : MemoSound headers memo) :
    (entries.foldl (fun (keyed,memo) p =>
      let (depth,memo) := transactionDepthMemo headers headers.keys.length p.1 memo
      (keyed ++ [(p.1,toLex (depth,toLex (p.2.createdAt,toLex (p.2.replicaId,p.1))))],memo))
      (keyed,memo)).1 = keyed ++ entries.map fun p => (p.1,linearKey headers p.1) := by
  obtain ⟨rank,hrank⟩ := hacyclic.exists_rank
  induction entries generalizing keyed memo with
  | nil => simp
  | cons p entries ih =>
    obtain ⟨hp,hentries⟩ := List.forall_mem_cons.mp hentries
    have hmem : p.1 ∈ headers := HashMap.mem_of_get? hp
    obtain ⟨hdepth,hsound⟩ :=
      transactionDepthMemo_spec hacyclic hrank (hrank.bound p.1 hmem) hmemo
    rw [List.foldl_cons]
    simp only [hdepth]
    rw [ih hentries _ hsound,List.append_assoc,List.map_cons,linearKey_eq hp,List.singleton_append]

theorem linearizeMemo_eq (hacyclic : Acyclic headers) :
    linearizeMemo headers = linearize headers := by
  have hempty : MemoSound headers ∅ := by
    intro id found hget
    simp at hget
  have hkeyed : keyedHeaders headers = headers.keys.map fun id => (id,linearKey headers id) := by
    have hentries : ∀ p ∈ headers.entries, headers.get? p.1 = some p.2 :=
      fun p hp => HashMap.mem_entries_iff.mp hp
    have hfold := foldl_keyed hacyclic hentries [] hempty
    rw [List.nil_append] at hfold
    rw [AList.keys,List.keys,List.map_map]
    exact hfold
  unfold linearizeMemo linearize
  rw [hkeyed,← List.map_insertionSort (fun a b => linearKey headers a ≤ linearKey headers b)
    (fun p q : Uuid × ℕ ×ₗ String ×ₗ Uuid ×ₗ Uuid => p.2 ≤ q.2)
    (fun id => (id,linearKey headers id)) headers.keys (fun _ _ _ _ => Iff.rfl),List.map_map]
  exact List.map_id _

end Depth

section Order

variable {headers headers' : Headers}

theorem linearKey_injective (headers : Headers) : Function.Injective (linearKey headers) := by
  have hid : ∀ id, (ofLex (ofLex (ofLex (linearKey headers id)).2).2).2 = id := by
    intro id
    unfold linearKey
    cases headers.get? id <;> rfl
  intro a b h
  rw [← hid a,← hid b,h]

theorem linearKey_parent_lt (hacyclic : Acyclic headers) {id parent : Uuid}
    (hparent : parent ∈ parentsOf headers id) (hmem : parent ∈ headers) :
    linearKey headers parent < linearKey headers id := by
  obtain ⟨_,hp⟩ := HashMap.exists_of_mem hmem
  obtain ⟨_,hi⟩ := HashMap.exists_of_mem (mem_of_parentsOf hparent)
  rw [linearKey_eq hp,linearKey_eq hi]
  exact Prod.Lex.toLex_lt_toLex.mpr (.inl (depth_parent_lt hacyclic hparent hmem))

/-- Two header maps that say the same, whatever order they are iterated in. -/
theorem keys_perm_of_get?_eq (h : ∀ id, headers'.get? id = headers.get? id) :
    headers'.keys.Perm headers.keys := by
  refine (List.perm_ext_iff_of_nodup headers'.nodupKeys headers.nodupKeys).mpr fun id => ?_
  refine AList.mem_keys.symm.trans (Iff.trans ?_ AList.mem_keys)
  rw [← HashMap.get?_isSome_iff,← HashMap.get?_isSome_iff,h id]

theorem parentsOf_congr (h : ∀ id, headers'.get? id = headers.get? id) :
    parentsOf headers' = parentsOf headers := by
  funext id
  rw [parentsOf,parentsOf,h id]

theorem mem_congr (h : ∀ id, headers'.get? id = headers.get? id) (id : Uuid) :
    id ∈ headers' ↔ id ∈ headers := by
  rw [← HashMap.get?_isSome_iff,← HashMap.get?_isSome_iff,h id]

theorem transactionDepth_congr (h : ∀ id, headers'.get? id = headers.get? id) (fuel : ℕ)
    (id : Uuid) : transactionDepth headers' fuel id = transactionDepth headers fuel id := by
  induction fuel generalizing id with
  | zero => rfl
  | succ fuel ih =>
    unfold transactionDepth
    rw [parentsOf_congr h]
    congr 1
    funext best parent
    simp only [mem_congr h,ih]

theorem linearKey_congr (h : ∀ id, headers'.get? id = headers.get? id) :
    linearKey headers' = linearKey headers := by
  funext id
  unfold linearKey
  rw [h id,(keys_perm_of_get?_eq h).length_eq]
  cases headers.get? id with
  | none => rfl
  | some header => simp only [transactionDepth_congr h]

theorem linearize_congr (h : ∀ id, headers'.get? id = headers.get? id) :
    linearize headers' = linearize headers := by
  have hnodup : (headers.keys.map (linearKey headers)).Nodup :=
    headers.nodupKeys.map (linearKey_injective headers)
  unfold linearize
  rw [linearKey_congr h]
  refine sortBy_eq ?_ (pairwise_lt_sortBy hnodup)
  exact (List.perm_insertionSort _ _).trans (keys_perm_of_get?_eq h).symm

theorem computeTips_congr (h : ∀ id, headers'.get? id = headers.get? id) :
    computeTips headers' = computeTips headers := by
  have hmem : ∀ id, id ∈ computeTips headers' ↔ id ∈ computeTips headers := by
    intro id
    rw [mem_computeTips,mem_computeTips,parentsOf_congr h,mem_congr h]
  have hnodup : ∀ headers : Headers, (computeTips headers).Nodup := fun headers =>
    (List.perm_insertionSort _ _).nodup_iff.mpr (headers.nodupKeys.filter _)
  have hsorted : ∀ headers : Headers, (computeTips headers).Pairwise (· ≤ ·) := fun headers =>
    List.pairwise_insertionSort _ _
  refine List.Perm.eq_of_pairwise (fun a b _ _ => le_antisymm) (hsorted _) (hsorted _) ?_
  exact (List.perm_ext_iff_of_nodup (hnodup _) (hnodup _)).mpr hmem

theorem linearize_pairwise (headers : Headers) :
    (linearize headers).Pairwise fun a b => linearKey headers a < linearKey headers b :=
  pairwise_lt_sortBy (headers.nodupKeys.map (linearKey_injective headers))

end Order

section Files

variable {ts ts' : List (Transaction Value)}

theorem headersOf_perm (hnodup : (ts.map Transaction.id).Nodup) (hperm : ts'.Perm ts) (id : Uuid) :
    (headersOf ts').get? id = (headersOf ts).get? id := by
  have hnodup' : (ts'.map Transaction.id).Nodup := (hperm.map _).nodup_iff.mpr hnodup
  refine Option.ext fun header => ?_
  rw [headersOf_get? hnodup',headersOf_get? hnodup]
  simp only [hperm.mem_iff]

def canonicalOrder (ts : List (Transaction Value)) : List (Transaction Value) :=
  ts.insertionSort fun t u => linearKey (headersOf ts) t.id ≤ linearKey (headersOf ts) u.id

theorem canonicalOrder_perm (ts : List (Transaction Value)) : (canonicalOrder ts).Perm ts :=
  List.perm_insertionSort _ _

theorem canonicalOrder_ids (hnodup : (ts.map Transaction.id).Nodup) :
    (canonicalOrder ts).map Transaction.id = linearize (headersOf ts) := by
  unfold canonicalOrder
  rw [List.map_insertionSort (fun t u : Transaction Value =>
    linearKey (headersOf ts) t.id ≤ linearKey (headersOf ts) u.id)
    (fun a b => linearKey (headersOf ts) a ≤ linearKey (headersOf ts) b) Transaction.id ts
    (fun _ _ _ _ => Iff.rfl)]
  have hkeys : (ts.map Transaction.id).map (linearKey (headersOf ts)) |>.Nodup :=
    hnodup.map (linearKey_injective _)
  refine sortBy_eq ?_ (linearize_pairwise _)
  exact (List.perm_insertionSort _ _).trans (keys_perm hnodup)

theorem canonicalEvents_eq (hnodup : (ts.map Transaction.id).Nodup) : canonicalEvents ts =
    (canonicalOrder ts).flatMap fun t => t.events.map EventEnvelope.indexed := by
  rw [canonicalEvents,← canonicalOrder_ids hnodup,List.flatMap_map]
  refine List.flatMap_congr fun t ht => ?_
  rw [eventsByTxn_get? hnodup ((canonicalOrder_perm ts).mem_iff.mp ht),Option.getD_some]

theorem canonicalOrder_eq {chain : List (Transaction Value)} (hperm : chain.Perm ts)
    (hchain : chain.IsChain fun t u => linearKey (headersOf ts) t.id < linearKey (headersOf ts) u.id) :
    canonicalOrder ts = chain := by
  refine sortBy_eq hperm ?_
  have htrans : IsTrans (Transaction Value) fun t u =>
      linearKey (headersOf ts) t.id < linearKey (headersOf ts) u.id := ⟨fun _ _ _ => lt_trans⟩
  exact List.isChain_iff_pairwise.mp hchain

theorem canonicalOrder_congr (hnodup : (ts.map Transaction.id).Nodup) (hperm : ts'.Perm ts) :
    canonicalOrder ts' = canonicalOrder ts := by
  have hkey : linearKey (headersOf ts') = linearKey (headersOf ts) :=
    linearKey_congr (headersOf_perm hnodup hperm)
  have hinjective : (ts.map fun t => linearKey (headersOf ts) t.id).Nodup := by
    have hkeys := hnodup.map (linearKey_injective (headersOf ts))
    rwa [List.map_map] at hkeys
  unfold canonicalOrder
  rw [hkey]
  exact sortBy_eq ((List.perm_insertionSort _ _).trans hperm.symm) (pairwise_lt_sortBy hinjective)

theorem buildIndex_streamEvents (ts : List (Transaction Value)) (log : IngestionLog) (s : String) :
    (buildIndex ts log).1.streamEvents s = (canonicalEvents ts).filter fun e => e.streamId = s := by
  have h := foldl_visit_streams (canonicalEvents ts) ⟨∅,[],log,[]⟩ s
  rw [HashMap.get?_empty,Option.getD_none,List.nil_append] at h
  exact h

/-- The read model of an acyclic set of files is the same in whatever order they are read and their
headers are iterated; parents come before their children, the events of a transaction stay
together, and a chain is read in its own order. -/
theorem linearization_converges (hnodup : (ts.map Transaction.id).Nodup)
    (hacyclic : Acyclic (headersOf ts)) :
    (∀ ts' log log', ts'.Perm ts →
      (∀ s, (buildIndex ts' log').1.streamEvents s = (buildIndex ts log).1.streamEvents s) ∧
      (buildIndex ts' log').1.tips = (buildIndex ts log).1.tips) ∧
    (∀ headers : Headers, (∀ id, headers.get? id = (headersOf ts).get? id) →
      linearizeMemo headers = (canonicalOrder ts).map Transaction.id ∧
      computeTips headers = computeTips (headersOf ts)) ∧
    (canonicalOrder ts).Perm ts ∧
    (∀ before t after, canonicalOrder ts = before ++ t :: after →
      ∀ parent ∈ ts, parent.id ∈ t.header.parentTransactionIds → parent ∈ before) ∧
    (∀ log s, (buildIndex ts log).1.streamEvents s = ((canonicalOrder ts).flatMap fun t =>
      t.events.map EventEnvelope.indexed).filter fun e => e.streamId = s) ∧
    ∀ chain : List (Transaction Value), chain.Perm ts →
      (chain.IsChain fun t u => t.id ∈ u.header.parentTransactionIds) →
      canonicalOrder ts = chain := by
  have hlink : ∀ t ∈ ts, ∀ u ∈ ts, u.id ∈ t.header.parentTransactionIds →
      linearKey (headersOf ts) u.id < linearKey (headersOf ts) t.id := by
    intro t ht u hu hparent
    refine linearKey_parent_lt hacyclic ?_ ((mem_headersOf hnodup).mpr ⟨u,hu,rfl⟩)
    rw [parentsOf,(headersOf_get? hnodup).mpr ⟨t,ht,rfl,rfl⟩]
    exact hparent
  refine ⟨fun ts' log log' hperm => ⟨fun s => ?_,?_⟩,fun headers hheaders => ⟨?_,?_⟩,
    canonicalOrder_perm ts,fun before t after hsplit parent hparent hmem => ?_,fun log s => ?_,
    fun chain hperm hchain => canonicalOrder_eq hperm ?_⟩
  · have hnodup' : (ts'.map Transaction.id).Nodup := (hperm.map _).nodup_iff.mpr hnodup
    rw [buildIndex_streamEvents,buildIndex_streamEvents,canonicalEvents_eq hnodup',
      canonicalEvents_eq hnodup,canonicalOrder_congr hnodup hperm]
  · exact computeTips_congr (headersOf_perm hnodup hperm)
  · have hacyclic' : Acyclic headers := by
      unfold Acyclic
      rw [parentsOf_congr hheaders]
      exact hacyclic
    rw [linearizeMemo_eq hacyclic',linearize_congr hheaders,canonicalOrder_ids hnodup]
  · exact computeTips_congr hheaders
  · have htmem : t ∈ ts := (canonicalOrder_perm ts).mem_iff.mp (by simp [hsplit])
    have hlt := hlink t htmem parent hparent hmem
    have hin : parent ∈ before ++ t :: after := by
      rw [← hsplit]
      exact (canonicalOrder_perm ts).mem_iff.mpr hparent
    have hsorted : (before ++ t :: after).Pairwise fun t u =>
        linearKey (headersOf ts) t.id ≤ linearKey (headersOf ts) u.id := by
      rw [← hsplit]
      exact pairwise_sortBy _ ts
    rcases List.mem_append.mp hin with hbefore | hafter
    · exact hbefore
    · rcases List.mem_cons.mp hafter with rfl | hafter
      · exact absurd hlt (lt_irrefl _)
      · have hle := (List.pairwise_cons.mp (List.pairwise_append.mp hsorted).2.1).1 parent hafter
        exact absurd hlt (not_lt_of_ge hle)
  · rw [buildIndex_streamEvents,canonicalEvents_eq hnodup]
  · refine hchain.imp_of_mem_imp fun t u ht hu hparent => ?_
    exact hlink u (hperm.mem_iff.mp hu) t (hperm.mem_iff.mp ht) hparent

theorem acyclic_of_rank (hnodup : (ts.map Transaction.id).Nodup) (rank : Uuid → ℕ)
    (hrank : ∀ t ∈ ts, ∀ parent ∈ t.header.parentTransactionIds, rank parent < rank t.id) :
    Acyclic (headersOf ts) := by
  intro id hcycle
  have hlt : rank id < rank id := by
    refine Ancestor.rank_lt (fun x parent hparent => ?_) hcycle
    obtain ⟨t,ht,rfl⟩ := (mem_headersOf hnodup).mp (mem_of_parentsOf hparent)
    rw [parentsOf,(headersOf_get? hnodup).mpr ⟨t,ht,rfl,rfl⟩] at hparent
    exact hrank t ht parent hparent
  exact absurd hlt (lt_irrefl _)

end Files

/-- A fork that a third transaction joins; a parent of one side is missing. -/
def diamond : List (Transaction ℕ) :=
  [⟨⟨4,8,[2,3],"t4",∅⟩,[⟨14,"a",3,"Merged",0⟩]⟩,⟨⟨3,9,[1,7],"t3",∅⟩,[⟨13,"a",2,"Theirs",0⟩]⟩,
    ⟨⟨1,8,[],"t1",∅⟩,[⟨11,"a",1,"Opened",0⟩]⟩,⟨⟨2,8,[1],"t2",∅⟩,[⟨12,"a",2,"Ours",0⟩]⟩]

theorem linearization_converges_diamond :
    ((buildIndex diamond.reverse (IngestionLog.load [])).1.streamEvents "a").map
        IndexedEvent.eventId = [11,12,13,14] ∧
      ∀ before t after, canonicalOrder diamond = before ++ t :: after → ∀ parent ∈ diamond,
        parent.id ∈ t.header.parentTransactionIds → parent ∈ before := by
  have hnodup : (diamond.map Transaction.id).Nodup := by decide
  have hacyclic : Acyclic (headersOf diamond) :=
    acyclic_of_rank hnodup (fun id => if id = 7 then 0 else id) (by decide)
  obtain ⟨hfiles,_,_,hparents,_⟩ := linearization_converges hnodup hacyclic
  obtain ⟨hstreams,_⟩ :=
    hfiles diamond.reverse (IngestionLog.load []) (IngestionLog.load []) (List.reverse_perm _)
  refine ⟨?_,hparents⟩
  rw [hstreams]
  decide +kernel

end FileStore
end EventCore
