import EventCore.IngestionFile
import EventCore.Linearization

/-! Opening a file store on headers with any parents. The hash of a file does not cover its header, and
the recursion that computes the depths comes back only if no transaction is its own ancestor. -/
namespace EventCore
namespace ParentCycles
open FileStore GraphSearch TransactionFiles IngestionFile Relation

variable {Path Value : Type}

section Opening

/-- `transaction_depth`, one parent deeper for each unit of fuel; without any it has not returned. -/
def transactionDepthWithin (headers : Headers) :
    ℕ → Uuid → HashMap Uuid ℕ → Option (ℕ × HashMap Uuid ℕ)
  | 0,_,_ => none
  | fuel+1,id,memo =>
    match memo.get? id with
    | some depth => some (depth,memo)
    | none =>
      let walked : Option (ℕ × HashMap Uuid ℕ) :=
        match headers.get? id with
        | none => some (0,memo)
        | some header =>
          header.parentTransactionIds.foldlM (fun (state : ℕ × HashMap Uuid ℕ) parent =>
            if parent ∈ headers then
              (transactionDepthWithin headers fuel parent state.2).map
                fun found => (max state.1 (found.1+1),found.2)
            else some state) (0,memo)
      walked.map fun state => (state.1,state.2.insert id state.1)

def keyedWithin (headers : Headers) (fuel : ℕ) :
    Option (List (Uuid × ℕ ×ₗ String ×ₗ Uuid ×ₗ Uuid) × HashMap Uuid ℕ) :=
  headers.entries.foldlM (fun state p =>
    (transactionDepthWithin headers fuel p.1 state.2).map fun r =>
      (state.1 ++ [(p.1,toLex (r.1,toLex (p.2.createdAt,toLex (p.2.replicaId,p.1))))],r.2)) ([],∅)

def linearizeWithin (headers : Headers) (fuel : ℕ) : Option (List Uuid) :=
  (keyedWithin headers fuel).map fun r =>
    (r.1.insertionSort fun p q => p.2 ≤ q.2).map Prod.fst

/-- `build_index` along the order that comes back. -/
def buildIndexWithin (transactions : List (Transaction Value)) (log : IngestionLog) (fuel : ℕ) :
    Option (Index Value × List (Uuid × ℕ)) :=
  (linearizeWithin (headersOf transactions) fuel).map fun order =>
    let events := order.flatMap fun id =>
      (((eventsByTxn transactions).get? id).getD []).map EventEnvelope.indexed
    let walk := events.foldl Walk.visit ⟨∅,[],log,[]⟩
    (⟨headersOf transactions,walk.positioned.insertionSort (fun p q => p.1 ≤ q.1),walk.streams,
        computeTips (headersOf transactions),walk.log⟩,
      walk.newEntries)

variable (sha256 : ByteArray → Vector UInt8 32) (lineCodec : LineCodec Value)
  (entryCodec : EntryCodec)

/-- The transactions that pass the integrity check; the loop over the directory ends at an error. -/
def loadTransactions (files : Path → Except String String) :
    List Path → Except (Corrupted Path) (List (Transaction Value))
  | [] => .ok []
  | path :: paths => do
    let loaded ← loadTransaction sha256 lineCodec files path
    let transactions ← loadTransactions files paths
    match loaded with
    | .valid header events =>
      return ⟨header.toTransactionHeader,events.map fun e => e.toEventEnvelope⟩ :: transactions
    | .integrity _ _ => return transactions

/-- `scan_index` on the transaction files and the contents of the ingestion log. -/
def scanIndexWithin (files : Path → Except String String) (paths : List Path) (logPath : Path)
    (contents : String) (fuel : ℕ) : Option (Except (Corrupted Path) (Index Value × String)) :=
  match loadTransactions sha256 lineCodec files paths with
  | .error error => some (.error error)
  | .ok transactions =>
    match load entryCodec logPath contents with
    | .error error => some (.error error)
    | .ok log => (buildIndexWithin transactions log fuel).map fun r =>
        (persist entryCodec logPath r.2 contents).map fun contents => (r.1,contents)

end Opening

section Cycles

variable {headers : Headers}

def Parent (headers : Headers) (parent id : Uuid) : Prop :=
  parent ∈ parentsOf headers id ∧ parent ∈ headers

theorem foldlM_keeps {σ α : Type} {f : σ → α → Option σ} {I : σ → Prop} {P : α → Prop}
    (hbody : ∀ {s a s'}, f s a = some s' → I s → P a ∧ I s') {as : List α} {s s' : σ}
    (h : as.foldlM f s = some s') (hs : I s) : (∀ a ∈ as, P a) ∧ I s' := by
  induction as generalizing s with
  | nil =>
    obtain rfl := Option.some.inj h
    exact ⟨by simp,hs⟩
  | cons a as ih =>
    rw [List.foldlM_cons] at h
    obtain ⟨between,ha,hrest⟩ := Option.bind_eq_some_iff.mp h
    obtain ⟨hP,hbetween⟩ := hbody ha hs
    obtain ⟨hall,hafter⟩ := ih hrest hbetween
    exact ⟨List.forall_mem_cons.mpr ⟨hP,hall⟩,hafter⟩

/-- A depth that comes back belongs to a transaction without endless ancestry. -/
theorem transactionDepthWithin_acc {fuel : ℕ} {id : Uuid} {memo : HashMap Uuid ℕ}
    {r : ℕ × HashMap Uuid ℕ} (h : transactionDepthWithin headers fuel id memo = some r)
    (hmemo : ∀ k ∈ memo, Acc (Parent headers) k) :
    Acc (Parent headers) id ∧ ∀ k ∈ r.2, Acc (Parent headers) k := by
  induction fuel generalizing id memo r with
  | zero => cases h
  | succ fuel ih =>
    rw [transactionDepthWithin] at h
    split at h
    · rename_i hfound
      obtain rfl := Option.some.inj h
      exact ⟨hmemo id (HashMap.mem_of_get? hfound),hmemo⟩
    obtain ⟨between,hwalk,rfl⟩ := Option.map_eq_some_iff.mp h
    have hboth : Acc (Parent headers) id ∧ ∀ k ∈ between.2, Acc (Parent headers) k := by
      split at hwalk
      · rename_i hnone
        obtain rfl := Option.some.inj hwalk
        refine ⟨⟨_,fun parent hparent => ?_⟩,hmemo⟩
        have hmem := mem_of_parentsOf hparent.1
        exact absurd hmem (HashMap.get?_eq_none_iff.mp hnone)
      · rename_i header hheader
        obtain ⟨hparents,hafter⟩ : (∀ parent ∈ header.parentTransactionIds,
            parent ∈ headers → Acc (Parent headers) parent) ∧
            ∀ k ∈ between.2, Acc (Parent headers) k := by
          refine foldlM_keeps
            (I := fun state : ℕ × HashMap Uuid ℕ => ∀ k ∈ state.2, Acc (Parent headers) k)
            (fun {state parent state'} hparent hstate => ?_) hwalk hmemo
          split_ifs at hparent with hmem
          · obtain ⟨found,hfound,rfl⟩ := Option.map_eq_some_iff.mp hparent
            obtain ⟨hacc,hmemo'⟩ := ih hfound hstate
            exact ⟨fun _ => hacc,hmemo'⟩
          · obtain rfl := Option.some.inj hparent
            exact ⟨fun hpresent => absurd hpresent hmem,hstate⟩
        refine ⟨⟨_,fun parent hparent => hparents parent ?_ hparent.2⟩,hafter⟩
        have hlisted := hparent.1
        rwa [parentsOf,hheader] at hlisted
    refine ⟨hboth.1,fun k hk => ?_⟩
    rcases AList.mem_insert _ |>.mp hk with rfl | hk
    · exact hboth.1
    · exact hboth.2 k hk

theorem keyedWithin_acc {fuel : ℕ}
    {r : List (Uuid × ℕ ×ₗ String ×ₗ Uuid ×ₗ Uuid) × HashMap Uuid ℕ}
    (h : keyedWithin headers fuel = some r) {id : Uuid} (hid : id ∈ headers) :
    Acc (Parent headers) id := by
  obtain ⟨header,hheader⟩ := HashMap.exists_of_mem hid
  obtain ⟨hentries,_⟩ : (∀ p ∈ headers.entries, Acc (Parent headers) p.1) ∧
      ∀ k ∈ r.2, Acc (Parent headers) k := by
    refine foldlM_keeps
      (I := fun state : List (Uuid × ℕ ×ₗ String ×ₗ Uuid ×ₗ Uuid) × HashMap Uuid ℕ =>
        ∀ k ∈ state.2, Acc (Parent headers) k)
      (fun {state p state'} hp hstate => ?_) h fun k hk => absurd hk (AList.notMem_empty k)
    obtain ⟨depth,hdepth,rfl⟩ := Option.map_eq_some_iff.mp hp
    exact transactionDepthWithin_acc hdepth hstate
  exact hentries ⟨id,header⟩ (HashMap.mem_entries_iff.mpr hheader)

theorem acyclic_of_acc (h : ∀ id ∈ headers, Acc (Parent headers) id) : Acyclic headers := by
  have hpresent : ∀ {a d : Uuid}, a ∈ headers → Ancestor (parentsOf headers) a d →
      TransGen (Parent headers) a d := by
    intro a d ha hancestor
    induction hancestor using TransGen.head_induction_on with
    | single hlink => exact .single ⟨hlink,ha⟩
    | head hlink hrest ih =>
      obtain ⟨_,hnext,_⟩ := TransGen.head'_iff.mp hrest
      exact ih.tail ⟨hlink,mem_of_parentsOf hnext⟩
  intro id hcycle
  obtain ⟨_,hlink,_⟩ := TransGen.head'_iff.mp hcycle
  have hid := mem_of_parentsOf hlink
  exact not_transGen_self (h id hid) (hpresent hid hcycle)

end Cycles

section Acyclic

variable {headers : Headers}

theorem foldlM_eq_foldl {σ α : Type} {f : σ → α → Option σ} {g : σ → α → σ} {as : List α}
    (h : ∀ a ∈ as, ∀ s, f s a = some (g s a)) (s : σ) : as.foldlM f s = some (as.foldl g s) := by
  induction as generalizing s with
  | nil => rfl
  | cons a as ih =>
    obtain ⟨ha,has⟩ := List.forall_mem_cons.mp h
    rw [List.foldlM_cons,List.foldl_cons,ha]
    exact ih has _

theorem transactionDepthWithin_eq {rank : Uuid → ℕ} (hrank : Rank headers rank) {fuel : ℕ} {id : Uuid}
    (hfuel : rank id < fuel) (memo : HashMap Uuid ℕ) :
    transactionDepthWithin headers fuel id memo =
      some (transactionDepthMemo headers fuel id memo) := by
  induction fuel generalizing id memo with
  | zero => cases hfuel
  | succ fuel ih =>
    unfold transactionDepthWithin transactionDepthMemo
    cases memo.get? id with
    | some found => rfl
    | none =>
      cases hheader : headers.get? id with
      | none => rfl
      | some header =>
        refine congrArg (Option.map _) (foldlM_eq_foldl (fun parent hparent state => ?_) (0,memo))
        obtain ⟨best,memo⟩ := state
        by_cases hmem : parent ∈ headers
        · have hlink : parent ∈ parentsOf headers id := by rwa [parentsOf,hheader]
          have hlt := hrank.link id parent hlink hmem
          simp only [if_pos hmem,ih (Nat.lt_of_lt_of_le hlt (Nat.le_of_lt_succ hfuel)),
            Option.map_some]
        · simp only [if_neg hmem]

theorem linearizeWithin_eq (hacyclic : Acyclic headers) :
    linearizeWithin headers headers.keys.length = some (linearize headers) := by
  obtain ⟨rank,hrank⟩ := hacyclic.exists_rank
  rw [← linearizeMemo_eq hacyclic,linearizeWithin,keyedWithin,linearizeMemo,keyedHeaders]
  refine congrArg (Option.map _) (foldlM_eq_foldl (fun p hp state => ?_) ([],∅))
  obtain ⟨keyed,memo⟩ := state
  have hmem : p.1 ∈ headers := HashMap.mem_of_get? (HashMap.mem_entries_iff.mp hp)
  rw [transactionDepthWithin_eq hrank (hrank.bound p.1 hmem),Option.map_some]

theorem linearizeWithin_isSome_iff :
    (∃ fuel order, linearizeWithin headers fuel = some order) ↔ Acyclic headers := by
  constructor
  · rintro ⟨fuel,order,h⟩
    obtain ⟨keyed,hkeyed,_⟩ := Option.map_eq_some_iff.mp h
    exact acyclic_of_acc fun id => keyedWithin_acc hkeyed
  · exact fun h => ⟨_,_,linearizeWithin_eq h⟩

theorem buildIndexWithin_eq {transactions : List (Transaction Value)}
    (h : Acyclic (headersOf transactions)) (log : IngestionLog) :
    buildIndexWithin transactions log (headersOf transactions).keys.length =
      some (buildIndex transactions log) := by
  rw [buildIndexWithin,linearizeWithin_eq h]
  rfl

end Acyclic

section Termination

variable {sha256 : ByteArray → Vector UInt8 32} {lineCodec : LineCodec Value}
  {entryCodec : EntryCodec} {files : Path → Except String String} {paths : List Path}
  {logPath : Path} {contents : String}

/-- Where opening comes back, it is with what `openStore` makes of the transactions and the log. -/
theorem scanIndexWithin_eq {transactions : List (Transaction Value)}
    (hload : loadTransactions sha256 lineCodec files paths = .ok transactions)
    (hacyclic : Acyclic (headersOf transactions)) :
    scanIndexWithin sha256 lineCodec entryCodec files paths logPath contents
        (headersOf transactions).keys.length =
      some (openStore entryCodec logPath transactions contents) := by
  rw [scanIndexWithin,hload,openStore]
  cases load entryCodec logPath contents with
  | error error => rfl
  | ok log =>
    simp only [buildIndexWithin_eq hacyclic,Option.map_some]
    cases hpersist : persist entryCodec logPath (buildIndex transactions log).2 contents <;>
      simp [bind,Except.bind,Except.map,hpersist,pure,Except.pure]

/-- Opening comes back, with an index or an error, exactly if a file or the log cannot be loaded or no
transaction that was loaded is its own ancestor. -/
theorem scanIndex_terminates_iff (sha256 : ByteArray → Vector UInt8 32) (lineCodec : LineCodec Value)
    (entryCodec : EntryCodec) (files : Path → Except String String) (paths : List Path)
    (logPath : Path) (contents : String) :
    (∃ fuel result, scanIndexWithin sha256 lineCodec entryCodec files paths logPath contents fuel =
        some result) ↔
      ∀ transactions log, loadTransactions sha256 lineCodec files paths = .ok transactions →
        load entryCodec logPath contents = .ok log → Acyclic (headersOf transactions) := by
  constructor
  · rintro ⟨fuel,result,h⟩ transactions log htransactions hlog
    rw [scanIndexWithin,htransactions,hlog] at h
    obtain ⟨built,hbuilt,_⟩ := Option.map_eq_some_iff.mp h
    obtain ⟨order,horder,_⟩ := Option.map_eq_some_iff.mp hbuilt
    exact linearizeWithin_isSome_iff.mp ⟨fuel,order,horder⟩
  · intro h
    cases htransactions : loadTransactions sha256 lineCodec files paths with
    | error error => exact ⟨0,.error error,by rw [scanIndexWithin,htransactions]⟩
    | ok transactions =>
      cases hlog : load entryCodec logPath contents with
      | error error => exact ⟨0,.error error,by rw [scanIndexWithin,htransactions,hlog]⟩
      | ok log => exact ⟨_,_,scanIndexWithin_eq htransactions (h transactions log htransactions hlog)⟩

end Termination

section Loop

def loopHeader : TransactionFiles.TransactionHeader :=
  ⟨⟨1,2,[1],"2026-01-01T00:00:00Z",∅⟩,2,none⟩

def loopFields : List Char :=
  "\"record\":\"header\",\"format_version\":2,".toList ++
  "\"transaction_id\":\"00000000-0000-0000-0000-000000000001\",".toList ++
  "\"replica_id\":\"00000000-0000-0000-0000-000000000002\",".toList ++
  "\"parent_transaction_ids\":[\"00000000-0000-0000-0000-000000000001\"],".toList ++
  "\"created_at\":\"2026-01-01T00:00:00Z\",\"stream_bases\":\x7b\x7d,\"content_hash\":".toList ++
  "\"e3b0c44298fc1c149afbf4c8996fb92427ae41e4649b934ca495991b7852b855\"".toList

def loopSha256 (_ : ByteArray) : Vector UInt8 32 :=
  #v[227,176,196,66,152,252,28,20,154,251,244,200,153,111,185,36,
    39,174,65,228,100,155,147,76,164,149,153,27,120,82,184,85]

def loopCodec : LineCodec ℕ where
  toString _ := .ok (braced loopFields)
  fromStr text :=
    if text = braced loopFields then .ok (.header (anchored loopSha256 loopHeader ""))
    else .error "expected value at line 1 column 1"

def loopFile (_ : Unit) : Except String String := .ok (braced loopFields ++ "\n" ++ "")

theorem load_loopFile : loadTransaction loopSha256 loopCodec loopFile () =
    .ok (.valid (anchored loopSha256 loopHeader "") []) := by
  have hline : '\n' ∉ (braced loopFields).toList := by
    rw [braced,String.toList_ofList]
    decide +kernel
  have hparse : loopCodec.fromStr (braced loopFields) =
      .ok (.header (anchored loopSha256 loopHeader "")) := by
    simp only [loopCodec,if_true]
  have hread : loopFile () = .ok (braced loopFields ++ "\n" ++ "") := rfl
  rw [loadTransaction_anchored hline hparse hread,if_pos rfl]
  rfl

/-- The file passes its integrity check, and opening on it never comes back. -/
theorem loop_never_opens :
    (contentHash loopSha256 "" =
        "e3b0c44298fc1c149afbf4c8996fb92427ae41e4649b934ca495991b7852b855" ∧
      loadTransaction loopSha256 loopCodec loopFile () =
        .ok (.valid (anchored loopSha256 loopHeader "") []) ∧
      ∀ (entryCodec : EntryCodec) (fuel : ℕ),
        scanIndexWithin loopSha256 loopCodec entryCodec loopFile [()] () "" fuel = none) ∧
    ¬ ∀ (sha256 : ByteArray → Vector UInt8 32) (lineCodec : LineCodec ℕ) (entryCodec : EntryCodec)
        (files : Unit → Except String String) (paths : List Unit) (contents : String),
      (∀ path ∈ paths, ∃ header events,
        loadTransaction sha256 lineCodec files path = .ok (.valid header events)) →
      ∃ fuel result,
        scanIndexWithin sha256 lineCodec entryCodec files paths () contents fuel = some result := by
  have hload : loadTransactions loopSha256 loopCodec loopFile [()] = .ok [⟨loopHeader.1,[]⟩] := by
    rw [loadTransactions,load_loopFile]
    rfl
  have hcycle : ¬ Acyclic (headersOf ([⟨loopHeader.1,[]⟩] : List (Transaction ℕ))) := by
    intro hacyclic
    have hself : (1 : Uuid) ∈ parentsOf (headersOf ([⟨loopHeader.1,[]⟩] : List (Transaction ℕ))) 1 := by
      decide
    exact hacyclic 1 (.link hself)
  have hnever : ∀ (entryCodec : EntryCodec) (fuel : ℕ),
      scanIndexWithin loopSha256 loopCodec entryCodec loopFile [()] () "" fuel = none := by
    intro entryCodec fuel
    rw [scanIndexWithin,hload,load_empty]
    have hlinear : linearizeWithin (headersOf ([⟨loopHeader.1,[]⟩] : List (Transaction ℕ))) fuel =
        none := by
      rw [Option.eq_none_iff_forall_ne_some]
      exact fun order horder => hcycle (linearizeWithin_isSome_iff.mp ⟨fuel,order,horder⟩)
    simp only [buildIndexWithin,hlinear,Option.map_none]
  refine ⟨⟨?_,load_loopFile,hnever⟩,fun hall => ?_⟩
  · rw [contentHash,loopSha256]
    rfl
  obtain ⟨fuel,result,h⟩ := hall loopSha256 loopCodec ⟨fun _ => .error "",fun _ => .error ""⟩ loopFile
    [()] "" (List.forall_mem_singleton.mpr ⟨_,_,load_loopFile⟩)
  rw [hnever] at h
  cases h

end Loop

end ParentCycles
end EventCore
