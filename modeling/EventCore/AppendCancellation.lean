import EventCore.FileChain
import EventCore.Replicas

/-! Appends on one store whose futures may be dropped at the await of the blocking file write.
The write goes on without its caller, while the append lock is free and the read model has not
seen the transaction. -/
namespace EventCore
namespace FileStore
namespace AppendCancellation
open GraphSearch

variable {Any Raw Value : Type}

structure Call (Value : Type) where
  transaction : Transaction Value
  landed : Bool

/-- The directory, the store over it when it is open, the append in progress, the writes whose
callers were dropped, and the ids drawn so far. -/
structure Process (Value : Type) where
  replicaId : Uuid
  files : List (Transaction Value)
  ingestionLog : List (Uuid × ℕ)
  index : Option (Index Value)
  call : Option (Call Value)
  lost : List (Transaction Value)
  minted : List Uuid

inductive Label (Any Raw : Type)
  | openStore
  | close
  | begin (writes : StreamWrites Any Raw) (stamp : Stamp)
  | land
  | finish
  | drop
  | landLost (n : ℕ)

variable (parse : Raw → Option Value)

def step (p : Process Value) : Label Any Raw → Option (Process Value)
  | .openStore =>
    match p.index with
    | some _ => none
    | none =>
      let (index,ingestionLog) := scanIndex p.files p.ingestionLog
      some { p with index := some index, ingestionLog := ingestionLog }
  | .close => if p.call.isSome then none else some { p with index := none }
  | .begin writes stamp =>
    match p.index, p.call with
    | some index, none =>
      if stamp.transactionId ∈ p.minted then none
      else
        let minted := p.minted ++ [stamp.transactionId]
        match writes.entries with
        | [] => some { p with minted := minted }
        | _ :: _ =>
          match prepareAppend parse p.replicaId index stamp writes with
          | .error _ => some { p with minted := minted }
          | .ok t => some { p with call := some ⟨t,false⟩, minted := minted }
    | _, _ => none
  | .land =>
    match p.call with
    | some ⟨t,false⟩ => some { p with files := p.files ++ [t], call := some ⟨t,true⟩ }
    | _ => none
  | .finish =>
    match p.index, p.call with
    | some index, some ⟨t,true⟩ =>
      let (index,entries) := index.ingestTransaction t fun _ => [t.id]
      some
        { p with
          ingestionLog := p.ingestionLog ++ entries
          index := some index
          call := none }
    | _, _ => none
  | .drop =>
    match p.call with
    | some ⟨t,false⟩ => some { p with call := none, lost := p.lost ++ [t] }
    | some ⟨_,true⟩ => some { p with call := none }
    | none => none
  | .landLost n =>
    match p.lost[n]? with
    | some t => some { p with files := p.files ++ [t], lost := p.lost.eraseIdx n }
    | none => none

def system (Any : Type) : Runs.System (Process Value) (Label Any Raw) where
  init p := ∃ replicaId, p = ⟨replicaId,[],[],none,none,[],[]⟩
  step := step parse

/-- No write of a dropped call is missing from the read model: none is in flight, and every
file is in the index. -/
def SeesEveryWrite (p : Process Value) : Prop :=
  p.lost = [] ∧ ∀ index, p.index = some index → ∀ t ∈ p.files, t.id ∈ index.headers

instance (p : Process Value) : Decidable (SeesEveryWrite p) :=
  inferInstanceAs
    (Decidable (p.lost = [] ∧ ∀ index ∈ p.index, ∀ t ∈ p.files, t.id ∈ index.headers))

/-- An append that writes only begins while the read model has seen every write. -/
def BeginsInSync (p : Process Value) : Label Any Raw → Prop
  | .begin writes _ => SeesEveryWrite p ∨ writes.entries = [] ∨
      ∀ index, p.index = some index → Rejected parse index writes
  | _ => True

/-- Number of events of a stream in the transactions that precede `t` canonically. -/
def canonicallyBefore (files : List (Transaction Value)) (t : Transaction Value) (stream : String) :
    ℕ :=
  ((((linearize (headersOf files)).takeWhile fun id => id ≠ t.id).flatMap fun id =>
    ((eventsByTxn files).get? id).getD []).filter fun e => e.streamId = stream).length

/-- Every transaction descends from the ones on disk before it, no detection fails on the live or
a reopened read model, and a batch registered the number of canonically earlier events. -/
structure CancellationSafe (p : Process Value) : Prop where
  descends : ∀ before t after, p.files = before ++ t :: after →
    ∀ u ∈ before, Ancestor (parentsOf (headersOf p.files)) u.id t.id
  detects : ∀ index, p.index = some index → ∃ forks, detectForksIn index.headers = .ok forks
  detectsReopened :
    ∃ forks, detectForksIn (scanIndex p.files p.ingestionLog).1.headers = .ok forks
  validated : ∀ t ∈ p.files, ∀ stream base, t.header.streamBases.get? stream = some base →
    base = canonicallyBefore p.files t stream

section Invariant

/-- `t` was validated against `ts` and has its last transaction as only parent. -/
structure Follows (ts : List (Transaction Value)) (t : Transaction Value) : Prop where
  parents : t.header.parentTransactionIds = (lastId ts).toList
  fresh : t.id ∉ ts.map Transaction.id
  bases : ∀ {stream base}, t.header.streamBases.get? stream = some base →
    base = countEvents ts stream
  valid : ∀ {stream base}, t.header.streamBases.get? stream = some base →
    ∃ streamId : StreamId, streamId.value = stream

/-- Every file follows the ones before it. -/
def Grown (ts : List (Transaction Value)) : Prop :=
  ∀ before t after, ts = before ++ t :: after → Follows before t

/-- The read model is the one of the files `ts`. -/
structure Reflects (index : Index Value) (ts : List (Transaction Value)) : Prop where
  headers : SameHeaders index.headers (headersOf ts)
  tips : index.tips = (lastId ts).toList
  heads : ∀ stream, index.streamHead stream = countEvents ts stream

theorem Grown.append {ts : List (Transaction Value)} {t : Transaction Value} (h : Grown ts)
    (ht : Follows ts t) : Grown (ts ++ [t]) := by
  intro before u after hsplit
  rcases List.eq_nil_or_concat after with rfl | ⟨front,v,rfl⟩
  · obtain ⟨rfl,hu⟩ := List.append_inj' hsplit rfl
    obtain rfl := (List.cons.inj hu).1
    exact ht
  · have hsplit' : ts ++ [t] = (before ++ u :: front) ++ [v] := by
      rw [hsplit]
      simp
    exact h before u front (List.append_inj' hsplit' rfl).1

theorem Grown.of_append {ts us : List (Transaction Value)} (h : Grown (ts ++ us)) : Grown ts := by
  intro before t after hsplit
  refine h before t (after ++ us) ?_
  simp [hsplit]

theorem Grown.nodup {ts : List (Transaction Value)} (h : Grown ts) :
    (ts.map Transaction.id).Nodup := by
  induction ts using List.reverseRecOn with
  | nil => exact List.nodup_nil
  | append_singleton ts t ih =>
    rw [List.map_append,List.map_singleton]
    refine List.Nodup.append (ih h.of_append) (List.nodup_singleton _) ?_
    intro id hid hid'
    exact (h ts t [] rfl).fresh (List.mem_singleton.mp hid' ▸ hid)

theorem Grown.isChain {ts : List (Transaction Value)} (h : Grown ts) : IsChain none ts := by
  induction ts using List.reverseRecOn with
  | nil => trivial
  | append_singleton ts t ih =>
    refine isChain_append.mpr ⟨ih h.of_append,?_,trivial⟩
    simpa using (h ts t [] rfl).parents

theorem Grown.wellFormed {ts : List (Transaction Value)} (h : Grown ts) :
    WellFormed (headersOf ts) := by
  refine wellFormed_chain h.isChain h.nodup fun t ht {stream base} hbase => ?_
  obtain ⟨before,after,hsplit⟩ := List.append_of_mem ht
  exact (h before t after hsplit).valid hbase

theorem reflects_scan {ts : List (Transaction Value)} (h : Grown ts) (lines : List (Uuid × ℕ)) :
    Reflects (scanIndex ts lines).1 ts where
  headers _ := rfl
  tips := computeTips_chain h.isChain h.nodup
  heads stream := by
    rw [Index.streamHead,scanIndex_streamEvents,canonicalEvents_chain h.isChain h.nodup,countEvents,
      List.filter_flatMap,List.length_flatMap,List.length_flatMap]
    congr 1
    refine List.map_congr_left fun t _ => ?_
    rw [List.filter_map,List.length_map]
    rfl

theorem Reflects.ingest {index : Index Value} {ts : List (Transaction Value)}
    {t : Transaction Value} (h : Reflects index ts) :
    Reflects (index.ingestTransaction t fun _ => [t.id]).1 (ts ++ [t]) where
  headers id := by
    have hheaders : (index.ingestTransaction t fun _ => [t.id]).1.headers =
        index.headers.insert t.id t.header := ingestAll_headers _ _
    rw [hheaders,headersOf,List.foldl_append,List.foldl_cons,List.foldl_nil,HashMap.get?_insert,
      HashMap.get?_insert,h.headers id]
    rfl
  tips := by
    rw [lastId_append_singleton]
    rfl
  heads stream := by
    have hevents : (index.ingestTransaction t fun _ => [t.id]).1.streamEvents stream =
        index.streamEvents stream ++ (t.events.map EventEnvelope.indexed).filter
          fun e => e.streamId = stream := ingestAll_streamEvents _ _ _
    have hold : (index.streamEvents stream).length = countEvents ts stream := h.heads stream
    have hone : countEvents [t] stream =
        (t.events.filter fun e => e.streamId = stream).length := by simp [countEvents]
    rw [Index.streamHead,hevents,List.length_append,hold,countEvents_append,List.filter_map,
      List.length_map,hone]
    rfl

theorem follows_of_prepare {index : Index Value} {ts : List (Transaction Value)}
    (h : Reflects index ts) {replicaId : Uuid} {stamp : Stamp} {writes : StreamWrites Any Raw}
    {t : Transaction Value} (hprep : prepareAppend parse replicaId index stamp writes = .ok t)
    (hfresh : stamp.transactionId ∉ ts.map Transaction.id) : Follows ts t := by
  obtain ⟨hid,_,hparents,_,hversions⟩ := prepareAppend_eq_ok hprep
  refine ⟨hparents.trans h.tips,hid ▸ hfresh,?_,fun hbase => prepareAppend_valid hprep hbase⟩
  intro stream base hbase
  obtain ⟨s,rfl,hs⟩ := (prepareAppend_bases hprep).mp hbase
  rw [← hversions s base hs,h.heads]

theorem Grown.detects {ts : List (Transaction Value)} (h : Grown ts) {headers : Headers}
    (hsame : SameHeaders headers (headersOf ts)) : ∃ forks, detectForksIn headers = .ok forks := by
  have hwf := hsame.symm.wellFormed h.wellFormed
  have hchain := hsame.symm.replicasChained (replicasChained_chain h.isChain h.nodup)
  rcases detectForksIn_spec hwf with ⟨hnot,_⟩ | ⟨_,forks,hrun,_⟩
  · exact absurd hchain hnot
  · exact ⟨forks,hrun⟩

/-- The canonically earlier events are those of the files before. -/
theorem Grown.canonicallyBefore {before after : List (Transaction Value)} {t : Transaction Value}
    (h : Grown (before ++ t :: after)) (stream : String) :
    canonicallyBefore (before ++ t :: after) t stream = countEvents before stream := by
  have hids : ((linearize (headersOf (before ++ t :: after))).takeWhile fun id => id ≠ t.id) =
      before.map Transaction.id := by
    have hnodup := h.nodup
    rw [List.map_append,List.nodup_append] at hnodup
    rw [linearize_chain h.isChain h.nodup,List.map_append,List.takeWhile_append_of_pos]
    · simp
    · intro id hid
      exact decide_eq_true (hnodup.2.2 id hid t.id (by simp))
  have hevents : ((before.map Transaction.id).flatMap fun id =>
      ((eventsByTxn (before ++ t :: after)).get? id).getD []) =
        before.flatMap fun u => u.events := by
    rw [List.flatMap_map]
    refine List.flatMap_congr fun u hu => ?_
    rw [eventsByTxn_get? h.nodup (by simp [hu]),Option.getD_some]
  rw [AppendCancellation.canonicallyBefore,hids,hevents,countEvents,List.filter_flatMap]

/-- Where a store stands between two steps, when no append outran a lost write. -/
inductive Phase (p : Process Value) : Prop
  | idle (hcall : p.call = none) (hlost : p.lost = [])
      (hindex : ∀ index, p.index = some index →
        ∃ before after, p.files = before ++ after ∧ Reflects index before)
  | lostWrite (t : Transaction Value) (hcall : p.call = none) (hlost : p.lost = [t])
      (hnext : Follows p.files t) (hid : t.id ∈ p.minted) (hindex : ∀ index, p.index = some index →
        ∃ before after, p.files = before ++ after ∧ Reflects index before)
  | writing (t : Transaction Value) (index : Index Value) (hcall : p.call = some ⟨t,false⟩)
      (hlost : p.lost = []) (hindex : p.index = some index) (hnow : Reflects index p.files)
      (hnext : Follows p.files t) (hid : t.id ∈ p.minted)
  | landed (t : Transaction Value) (index : Index Value) (before : List (Transaction Value))
      (hcall : p.call = some ⟨t,true⟩) (hlost : p.lost = []) (hindex : p.index = some index)
      (hfiles : p.files = before ++ [t]) (hnow : Reflects index before)

structure Inv (p : Process Value) : Prop where
  grown : Grown p.files
  drawn : ∀ id ∈ p.files.map Transaction.id, id ∈ p.minted
  phase : Phase p

theorem Phase.reflects {p : Process Value} (h : Phase p) {index : Index Value}
    (hindex : p.index = some index) :
    ∃ before after, p.files = before ++ after ∧ Reflects index before := by
  cases h with
  | idle _ _ hpre => exact hpre index hindex
  | lostWrite _ _ _ _ _ hpre => exact hpre index hindex
  | writing _ index' _ _ hindex' hnow =>
    obtain rfl := Option.some.inj (hindex'.symm.trans hindex)
    exact ⟨p.files,[],by simp,hnow⟩
  | landed t index' before _ _ hindex' hfiles hnow =>
    obtain rfl := Option.some.inj (hindex'.symm.trans hindex)
    exact ⟨before,[t],hfiles,hnow⟩

theorem Inv.cancellationSafe {p : Process Value} (h : Inv p) : CancellationSafe p := by
  obtain ⟨hgrown,_,hphase⟩ := h
  refine ⟨?_,?_,?_,?_⟩
  · intro before t after hsplit u hu
    exact ancestor_chain hgrown.isChain hgrown.nodup hsplit hu
  · intro index hindex
    obtain ⟨before,after,hfiles,hreflects⟩ := hphase.reflects hindex
    rw [hfiles] at hgrown
    exact hgrown.of_append.detects hreflects.headers
  · exact hgrown.detects fun _ => rfl
  · intro t ht stream base hbase
    obtain ⟨before,after,hsplit⟩ := List.append_of_mem ht
    rw [(hgrown before t after hsplit).bases hbase]
    rw [hsplit] at hgrown ⊢
    exact (hgrown.canonicallyBefore stream).symm

theorem Reflects.all {index : Index Value} {before after : List (Transaction Value)}
    (hgrown : Grown (before ++ after)) (h : Reflects index before)
    (hall : ∀ t ∈ before ++ after, t.id ∈ index.headers) : after = [] := by
  refine List.eq_nil_iff_forall_not_mem.mpr fun t ht => ?_
  have hmem := h.headers.mem_iff.mp (hall t (List.mem_append_right _ ht))
  obtain ⟨u,hu,hut⟩ := (mem_headersOf hgrown.of_append.nodup).mp hmem
  have hnodup := hgrown.nodup
  rw [List.map_append] at hnodup
  exact (List.nodup_append.mp hnodup).2.2 _ (List.mem_map.mpr ⟨u,hu,hut⟩) _
    (List.mem_map_of_mem ht) rfl

theorem drawn_append {ts : List (Transaction Value)} {t : Transaction Value} {minted : List Uuid}
    (h : ∀ id ∈ ts.map Transaction.id, id ∈ minted) (ht : t.id ∈ minted) :
    ∀ id ∈ (ts ++ [t]).map Transaction.id, id ∈ minted := by
  intro id hid
  rw [List.map_append] at hid
  rcases List.mem_append.mp hid with hid | hid
  · exact h id hid
  · exact List.mem_singleton.mp hid ▸ ht

theorem Phase.still {p p' : Process Value} (h : Phase p) (hcall : p.call = none)
    (hcall' : p'.call = none) (hlost : p'.lost = p.lost) (hfiles : p'.files = p.files)
    (hminted : p.minted ⊆ p'.minted)
    (hindex : ∀ index, p'.index = some index →
      ∃ before after, p'.files = before ++ after ∧ Reflects index before) : Phase p' := by
  cases h with
  | idle _ hnone => exact .idle hcall' (hlost.trans hnone) hindex
  | lostWrite t _ hone hnext hid =>
    exact .lostWrite t hcall' (hlost.trans hone) (hfiles ▸ hnext) (hminted hid) hindex
  | writing _ _ hsome => simp [hcall] at hsome
  | landed _ _ _ hsome => simp [hcall] at hsome

theorem Phase.call_of_closed {p : Process Value} (h : Phase p) (hclosed : p.index = none) :
    p.call = none := by
  cases h with
  | idle hcall => exact hcall
  | lostWrite _ hcall => exact hcall
  | writing _ _ _ _ hsome => simp [hclosed] at hsome
  | landed _ _ _ _ _ hsome => simp [hclosed] at hsome

theorem inv_begin {p p' : Process Value} {writes : StreamWrites Any Raw} {stamp : Stamp} (h : Inv p)
    (hguard : BeginsInSync parse p (.begin writes stamp))
    (hstep : step parse p (.begin writes stamp) = some p') : Inv p' := by
  obtain ⟨hgrown,hdrawn,hphase⟩ := h
  simp only [step] at hstep
  cases hindex : p.index with
  | none => simp [hindex] at hstep
  | some index =>
    cases hcall : p.call with
    | some call => simp [hindex,hcall] at hstep
    | none =>
      simp only [hindex,hcall] at hstep
      split_ifs at hstep with hfresh
      have hdrawn' : ∀ id ∈ p.files.map Transaction.id, id ∈ p.minted ++ [stamp.transactionId] :=
        fun id hid => List.mem_append_left _ (hdrawn id hid)
      -- an append that writes nothing leaves the phase as it was
      have hsame : Phase
          { p with
            index := some index
            call := none
            minted := p.minted ++ [stamp.transactionId] } :=
        hphase.still hcall rfl rfl rfl (List.subset_append_left _ _) fun index' hindex' =>
          hphase.reflects (hindex.trans hindex')
      cases hents : writes.entries with
      | nil =>
        simp only [hents,Option.some.injEq] at hstep
        exact hstep ▸ ⟨hgrown,hdrawn',hsame⟩
      | cons entry entries =>
        rcases prepareAppend_cases parse p.replicaId index stamp writes with
          ⟨_,e,hprep⟩ | ⟨hkept,t,hprep⟩
        · simp only [hents,hprep,Option.some.injEq] at hstep
          exact hstep ▸ ⟨hgrown,hdrawn',hsame⟩
        · simp only [hents,hprep,Option.some.injEq] at hstep
          obtain ⟨hlost,hall⟩ : SeesEveryWrite p := by
            rcases hguard with h | h | h
            · exact h
            · simp [hents] at h
            · exact absurd (h index hindex) hkept
          obtain ⟨before,after,hfiles,hreflects⟩ := hphase.reflects hindex
          have hnil : after = [] := by
            refine hreflects.all (hfiles ▸ hgrown) fun t ht => ?_
            exact hall index hindex t (hfiles ▸ ht)
          rw [hnil,List.append_nil] at hfiles
          have hnext : Follows p.files t :=
            follows_of_prepare parse (hfiles ▸ hreflects) hprep fun hm => hfresh (hdrawn _ hm)
          have hid : t.id = stamp.transactionId := (prepareAppend_eq_ok hprep).1
          rw [← hstep]
          exact ⟨hgrown,hdrawn',.writing t index rfl hlost rfl (hfiles ▸ hreflects) hnext
            (by simp [hid])⟩

theorem inv_step {p p' : Process Value} {l : Label Any Raw} (h : Inv p)
    (hguard : BeginsInSync parse p l) (hstep : step parse p l = some p') : Inv p' := by
  obtain ⟨hgrown,hdrawn,hphase⟩ := h
  cases l with
  | begin writes stamp => exact inv_begin parse ⟨hgrown,hdrawn,hphase⟩ hguard hstep
  | openStore =>
    simp only [step] at hstep
    cases hindex : p.index with
    | some index => simp [hindex] at hstep
    | none =>
      simp only [hindex,Option.some.injEq] at hstep
      subst hstep
      have hcall := hphase.call_of_closed hindex
      refine ⟨hgrown,hdrawn,hphase.still hcall hcall rfl rfl (List.Subset.refl _) ?_⟩
      rintro index ⟨⟩
      exact ⟨p.files,[],by simp,reflects_scan hgrown _⟩
  | close =>
    simp only [step] at hstep
    split_ifs at hstep with hcall
    obtain rfl := Option.some.inj hstep
    have hnone : p.call = none := by simpa using hcall
    exact ⟨hgrown,hdrawn,hphase.still hnone hnone rfl rfl (List.Subset.refl _) (by simp)⟩
  | land =>
    simp only [step] at hstep
    cases hphase with
    | idle hcall => simp [hcall] at hstep
    | lostWrite _ hcall => simp [hcall] at hstep
    | landed _ _ _ hcall => simp [hcall] at hstep
    | writing t index hcall hlost hindex hnow hnext hid =>
      simp only [hcall,Option.some.injEq] at hstep
      rw [← hstep]
      exact ⟨hgrown.append hnext,drawn_append hdrawn hid,
        .landed t index p.files rfl hlost hindex rfl hnow⟩
  | finish =>
    simp only [step] at hstep
    cases hphase with
    | idle hcall => simp [hcall] at hstep
    | lostWrite _ hcall => simp [hcall] at hstep
    | writing _ _ hcall => simp [hcall] at hstep
    | landed t index before hcall hlost hindex hfiles hnow =>
      simp only [hcall,hindex,Option.some.injEq] at hstep
      rw [← hstep]
      refine ⟨hgrown,hdrawn,.idle rfl hlost ?_⟩
      rintro index' ⟨⟩
      exact ⟨p.files,[],by simp,hfiles ▸ hnow.ingest⟩
  | drop =>
    simp only [step] at hstep
    cases hphase with
    | idle hcall => simp [hcall] at hstep
    | lostWrite _ hcall => simp [hcall] at hstep
    | writing t index hcall hlost hindex hnow hnext hid =>
      simp only [hcall,Option.some.injEq] at hstep
      rw [← hstep]
      refine ⟨hgrown,hdrawn,.lostWrite t rfl (by simp [hlost]) hnext hid ?_⟩
      intro index' hindex'
      obtain rfl := Option.some.inj (hindex.symm.trans hindex')
      exact ⟨p.files,[],by simp,hnow⟩
    | landed t index before hcall hlost hindex hfiles hnow =>
      simp only [hcall,Option.some.injEq] at hstep
      rw [← hstep]
      refine ⟨hgrown,hdrawn,.idle rfl hlost ?_⟩
      intro index' hindex'
      obtain rfl := Option.some.inj (hindex.symm.trans hindex')
      exact ⟨before,[t],hfiles,hnow⟩
  | landLost n =>
    simp only [step] at hstep
    cases hphase with
    | idle _ hlost => simp [hlost] at hstep
    | writing _ _ _ hlost => simp [hlost] at hstep
    | landed _ _ _ _ hlost => simp [hlost] at hstep
    | lostWrite t hcall hlost hnext hid hpre =>
      cases n with
      | succ n => simp [hlost] at hstep
      | zero =>
        simp only [hlost,List.getElem?_cons_zero,Option.some.injEq] at hstep
        rw [← hstep]
        refine ⟨hgrown.append hnext,drawn_append hdrawn hid,.idle hcall rfl ?_⟩
        intro index hindex
        obtain ⟨before,after,hfiles,hreflects⟩ := hpre index hindex
        exact ⟨before,after ++ [t],by simp [hfiles],hreflects⟩

theorem inv_of_reachable {p : Process Value}
    (h : Runs.ReachableBy (system parse Any) (BeginsInSync parse) p) : Inv p := by
  refine Runs.ReachableBy.invariant ?_ (fun p l p' => inv_step parse) h
  rintro p ⟨replicaId,rfl⟩
  refine ⟨?_,by simp,.idle rfl rfl (by simp)⟩
  intro before t after hsplit
  simp at hsplit

end Invariant

/-- Appends stay safe under dropped callers in every run in which no append begins to write while
the write of a dropped call is missing from the read model. -/
theorem appends_cancellation_safe {p : Process Value}
    (h : Runs.ReachableBy (system parse Any) (BeginsInSync parse) p) : CancellationSafe p :=
  (inv_of_reachable parse h).cancellationSafe

section Scenarios
open TwoCopies

def Label.begins : Label Any Raw → Bool
  | .begin _ _ => true
  | _ => false

def started : Process ℕ := ⟨1,[],[],none,none,[],[]⟩

/-- The caller of the first append is dropped, and the second append, to another stream, begins
when the file of the first is already in the directory. -/
def dropFirst : List (Label ℕ ℕ) :=
  [.openStore,.begin openOne (stamp 1),.drop,.landLost 0,.begin openOther (stamp 2),.land,.finish,
    .close]

def reopenBetween : List (Label ℕ ℕ) :=
  [.openStore,.begin openOne (stamp 1),.drop,.landLost 0,.close,.openStore,
    .begin openOther (stamp 2),.land,.finish]

/-- Two sequential appends of one store to two streams end in a replica conflict. -/
theorem dropped_append_forks : ¬ ∀ p : Process ℕ,
    Runs.Reachable (system some ℕ) p → CancellationSafe p := by
  intro hall
  have hrun : (Runs.exec (system some ℕ) started dropFirst).map (fun p =>
      detectForksIn (scanIndex p.files p.ingestionLog).1.headers) =
        some (.error (.replicaIdentityConflict 1 2 1)) := by decide +kernel
  obtain ⟨p,hp,hdetect⟩ := Option.map_eq_some_iff.mp hrun
  have hreach : Runs.Reachable (system some ℕ) started := .init ⟨1,rfl⟩
  obtain ⟨forks,hok⟩ := (hall p (hreach.exec hp)).detectsReopened
  rw [hdetect] at hok
  cases hok

theorem appends_cancellation_safe_reopen :
    ∃ p, Runs.exec (system some ℕ) started reopenBetween = some p ∧ p.files.length = 2 ∧
      CancellationSafe p := by
  have hrun : (Runs.exec (system some ℕ) started reopenBetween).map (fun p => p.files.length) =
      some 2 := by decide +kernel
  obtain ⟨p,hp,hlen⟩ := Option.map_eq_some_iff.mp hrun
  have hsync : Runs.AllSteps (system some ℕ) (fun p l => l.begins = true → SeesEveryWrite p)
      started reopenBetween := by decide +kernel
  have hreach : Runs.ReachableBy (system some ℕ) (BeginsInSync some) p := by
    have hstart : (system some ℕ).init started := ⟨1,rfl⟩
    refine (Runs.ReachableBy.exec (.init hstart) hsync hp).mono fun q l hl => ?_
    cases l with
    | begin => exact .inl (hl rfl)
    | _ => trivial
  exact ⟨p,hp,hlen,appends_cancellation_safe some hreach⟩

end Scenarios

end AppendCancellation
end FileStore
end EventCore
