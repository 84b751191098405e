import EventCore.LocalIngestion
import EventCore.SharedHistory

/-! One open store against what a rebuild would make of its files. An append stands above everything
that is there; a merge stands above the heads of its fork only. -/
namespace EventCore
namespace FileStore
namespace LiveIndex
open GraphSearch Grouping LocalIngestion Runs

variable {Any Raw Value E ι : Type}

section Depth

variable {headers : Headers} {header : TransactionHeader} (hwf : WellFormed headers)
  (hacyclic' : Acyclic (extend headers header)) (hfresh : header.transactionId ∉ headers)
  (hparents : ∀ p ∈ header.parentTransactionIds, p ∈ headers)
include hwf hacyclic' hfresh

theorem depth_extend {id : Uuid} (hid : id ∈ headers) :
    depth (extend headers header) id = depth headers id :=
  PartOf.depth_eq ⟨get?_extend hfresh,fun hp => hwf.closed hp⟩ hacyclic' hid

include hparents

theorem depth_extend_self : depth (extend headers header) header.transactionId =
    depthOver headers (depth headers) header.parentTransactionIds := by
  rw [depth_eq hacyclic',parentsOf_extend_self]
  exact depthOver_congr hparents (fun parent hp => mem_extend.mpr (.inr (hparents parent hp)))
    fun parent hp => depth_extend hwf hacyclic' hfresh (hparents parent hp)

end Depth

theorem depth_le_of_ancestorOrSelf {headers : Headers} (hwf : WellFormed headers)
    (hacyclic : Acyclic headers) {a d : Uuid} (h : AncestorOrSelf (parentsOf headers) a d) :
    depth headers a ≤ depth headers d := by
  rcases h with rfl | h
  · exact le_rfl
  · have hlt : depth headers a < depth headers d :=
      Ancestor.rank_lt (fun x y hy => depth_parent_lt hacyclic hy (hwf.closed hy)) h
    exact hlt.le

section Store

variable {minted : List Uuid} {store : FileEventStore Value}

theorem acyclic_of_sound (h : Sound minted store) : Acyclic store.index.headers := by
  intro id hcycle
  have hrank : ∀ x y, y ∈ parentsOf store.index.headers x → minted.idxOf y < minted.idxOf x :=
    fun _ _ hparent => h.ranked hparent
  exact absurd (Ancestor.rank_lt hrank hcycle) (lt_irrefl _)

/-- The depth at which a transaction with these parents will stand. -/
def depthAbove (store : FileEventStore Value) (parents : List Uuid) : ℕ :=
  depthOver store.index.headers (depth store.index.headers) parents

/-- A new transaction is put behind all that is no deeper, being written last. -/
theorem canonicalOrder_concat {minted' : List Uuid} {t : Transaction Value}
    {tips : Headers → List Uuid} (h : Sound minted store) (h' : Sound minted' (store.commit t tips))
    (hparents : ∀ p ∈ t.header.parentTransactionIds, p ∈ store.index.headers)
    (hclock : ∀ u ∈ store.files, u.header.createdAt < t.header.createdAt) :
    ∃ before after, canonicalOrder store.files = before ++ after ∧
      canonicalOrder (store.files ++ [t]) = before ++ t :: after ∧
      (∀ u ∈ before, depth store.index.headers u.id ≤
        depthAbove store t.header.parentTransactionIds) ∧
      ∀ u ∈ after, depthAbove store t.header.parentTransactionIds <
        depth store.index.headers u.id := by
  have hfresh : t.id ∉ store.index.headers := by
    intro hmem
    obtain ⟨u,hu,hid⟩ := (mem_headersOf h.nodup).mp (h.headers.mem_iff.mp hmem)
    have hids := h'.nodup
    rw [commit_files,List.map_append,List.nodup_append] at hids
    exact hids.2.2 _ (List.mem_map_of_mem hu) _ List.mem_cons_self hid
  have hacyclic := acyclic_of_sound h
  have hacyclic' := acyclic_of_sound h'
  rw [commit_headers] at hacyclic'
  let headers' := extend store.index.headers t.header
  have hold : linearKey (headersOf store.files) = linearKey store.index.headers :=
    linearKey_congr fun id => (h.headers id).symm
  have hnew : linearKey (headersOf (store.files ++ [t])) = linearKey headers' := by
    have hsame := h'.headers
    rw [commit_headers,commit_files] at hsame
    exact linearKey_congr fun id => (hsame id).symm
  have hkey : ∀ u ∈ store.files, linearKey headers' u.id = linearKey store.index.headers u.id := by
    intro u hu
    have hget := h.get?_of_mem hu
    have hmem : u.id ∈ store.index.headers := HashMap.mem_of_get? hget
    rw [linearKey_eq hget,linearKey_eq (get?_extend hfresh hget),
      depth_extend h.wellFormed hacyclic' hfresh hmem]
  have hself : linearKey headers' t.id = toLex (depthAbove store t.header.parentTransactionIds,
      toLex (t.header.createdAt,toLex (t.header.replicaId,t.id))) := by
    have hget : headers'.get? t.id = some t.header := by
      rw [HashMap.get?_insert,if_pos rfl]
    rw [linearKey_eq hget,depth_extend_self h.wellFormed hacyclic' hfresh hparents]
    rfl
  have hnodup : ((store.files ++ [t]).map fun u => linearKey headers' u.id).Nodup := by
    have hkeys := h'.nodup.map (linearKey_injective headers')
    rwa [List.map_map] at hkeys
  obtain ⟨before,after,hperm,hsplit,hsorted,hbefore,hafter⟩ := sortBy_concat hnodup
  have hmem : ∀ u ∈ before ++ after, u ∈ store.files := fun u hu => hperm.mem_iff.mp hu
  refine ⟨before,after,?_,?_,fun u hu => ?_,fun u hu => ?_⟩
  · unfold canonicalOrder
    rw [hold]
    refine sortBy_eq hperm (hsorted.imp_of_mem fun {u v} hu hv hlt => ?_)
    rwa [hkey u (hmem u hu),hkey v (hmem v hv)] at hlt
  · unfold canonicalOrder
    rw [hnew]
    exact hsplit
  · have hu' := hmem u (List.mem_append_left _ hu)
    have hlt := hbefore u hu
    rw [hkey u hu',linearKey_eq (h.get?_of_mem hu'),hself] at hlt
    rcases Prod.Lex.toLex_lt_toLex.mp hlt with hlt | ⟨heq,_⟩
    · exact hlt.le
    · exact heq.le
  · have hu' := hmem u (List.mem_append_right _ hu)
    have hlt := hafter u hu
    rw [hkey u hu',linearKey_eq (h.get?_of_mem hu'),hself] at hlt
    rcases Prod.Lex.toLex_lt_toLex.mp hlt with hlt | ⟨_,hlt⟩
    · exact hlt
    · have hearlier := hclock u hu'
      rcases Prod.Lex.toLex_lt_toLex.mp hlt with hlt | ⟨heq,_⟩
      · exact absurd hlt hearlier.not_gt
      · exact absurd heq hearlier.ne'

def contribution (s : String) (t : Transaction Value) : List (IndexedEvent Value) :=
  (t.events.map EventEnvelope.indexed).filter fun e => e.streamId = s

theorem mem_contribution {s : String} {t : Transaction Value} {e : IndexedEvent Value}
    (h : e ∈ contribution s t) : e ∈ eventsOf [t] := by
  have hmem := (List.mem_filter.mp h).1
  simpa [eventsOf] using hmem

theorem eventsOf_subset {t : Transaction Value} {ts : List (Transaction Value)} (ht : t ∈ ts)
    {e : IndexedEvent Value} (he : e ∈ eventsOf [t]) : e ∈ eventsOf ts := by
  refine List.mem_flatMap.mpr ⟨t,ht,?_⟩
  simpa [eventsOf] using he

theorem reopen_streamEvents (hnodup : (store.files.map Transaction.id).Nodup) (s : String) :
    store.reopen.index.streamEvents s = (canonicalOrder store.files).flatMap (contribution s) := by
  have hscan : store.reopen.index.streamEvents s =
      (canonicalEvents store.files).filter fun e => e.streamId = s :=
    scanIndex_streamEvents store.files store.ingestionLog s
  rw [hscan,canonicalEvents_eq hnodup,List.filter_flatMap]
  rfl

def StreamsMatch (store : FileEventStore Value) : Prop :=
  ∀ s, store.index.streamEvents s = store.reopen.index.streamEvents s

theorem streamsMatch_reopen (hnodup : (store.files.map Transaction.id).Nodup) :
    StreamsMatch store.reopen := by
  have hagain : (store.reopen.files.map Transaction.id).Nodup := hnodup
  intro s
  rw [reopen_streamEvents hnodup,reopen_streamEvents hagain,reopen_files]

/-- No transaction with events in a stream of the new one will stand behind it. -/
def SortsLast (store : FileEventStore Value) (parents : List Uuid) (streams : List String) : Prop :=
  ∀ u ∈ store.files, (∃ e ∈ u.events, e.streamId ∈ streams) →
    depth store.index.headers u.id ≤ depthAbove store parents

instance (store : FileEventStore Value) (parents : List Uuid) (streams : List String) :
    Decidable (SortsLast store parents streams) :=
  inferInstanceAs (Decidable (∀ u ∈ store.files, _ → _))

theorem contribution_eq_nil_iff {s : String} {t : Transaction Value} :
    contribution s t = [] ↔ ∀ e ∈ t.events, e.streamId ≠ s := by
  simp [contribution,List.filter_eq_nil_iff,EventEnvelope.indexed]

theorem streamsMatch_commit_iff {minted' : List Uuid} {t : Transaction Value}
    {tips : Headers → List Uuid} (h : Sound minted store) (h' : Sound minted' (store.commit t tips))
    (hparents : ∀ p ∈ t.header.parentTransactionIds, p ∈ store.index.headers)
    (hclock : ∀ u ∈ store.files, u.header.createdAt < t.header.createdAt)
    (hdistinct : Distinct (store.files ++ [t]))
    (hlive : ∀ s, ∀ e ∈ store.index.streamEvents s, e ∈ eventsOf store.files) :
    StreamsMatch (store.commit t tips) ↔ StreamsMatch store ∧
      SortsLast store t.header.parentTransactionIds (t.events.map EventEnvelope.streamId) := by
  obtain ⟨before,after,hold,hnew,hbefore,hafter⟩ := canonicalOrder_concat h h' hparents hclock
  have hmem : ∀ u, u ∈ store.files ↔ u ∈ before ++ after := by
    intro u
    rw [← hold]
    exact (canonicalOrder_perm _).mem_iff.symm
  -- the events of the new transaction are told from the others by their identifiers
  let old : IndexedEvent Value → Bool := fun e => decide (e.eventId ∉
    (eventsOf [t]).map IndexedEvent.eventId)
  have hids := hdistinct.2
  rw [eventsOf_append,List.map_append,List.nodup_append] at hids
  have hkept : ∀ e ∈ eventsOf store.files, old e = true := by
    intro e he
    refine decide_eq_true fun hmem => ?_
    exact hids.2.2 _ (List.mem_map_of_mem he) _ hmem rfl
  have hpart : ∀ s, (store.commit t tips).index.streamEvents s =
      (store.commit t tips).reopen.index.streamEvents s ↔
      store.index.streamEvents s = store.reopen.index.streamEvents s ∧
        (contribution s t = [] ∨ after.flatMap (contribution s) = []) := by
    intro s
    rw [commit_streamEvents,reopen_streamEvents h'.nodup,reopen_streamEvents h.nodup,commit_files,
      hold,hnew,List.flatMap_append,List.flatMap_append,List.flatMap_cons,← List.append_assoc]
    have hfrom : ∀ us : List (Transaction Value), (∀ u ∈ us, u ∈ store.files) →
        ∀ e ∈ us.flatMap (contribution s), old e = true := by
      intro us hus e he
      obtain ⟨u,hu,heu⟩ := List.mem_flatMap.mp he
      exact hkept e (eventsOf_subset (hus u hu) (mem_contribution heu))
    refine append_eq_insert_iff old (fun e he => hkept e (hlive s e he)) ?_ ?_ ?_
    · exact hfrom before fun u hu => (hmem u).mpr (List.mem_append_left _ hu)
    · intro e he
      refine decide_eq_false fun hnot => hnot ?_
      exact List.mem_map_of_mem (mem_contribution he)
    · exact hfrom after fun u hu => (hmem u).mpr (List.mem_append_right _ hu)
  have hlast : (∀ s, contribution s t = [] ∨ after.flatMap (contribution s) = []) ↔
      SortsLast store t.header.parentTransactionIds (t.events.map EventEnvelope.streamId) := by
    constructor
    · rintro hnone u hu ⟨e,he,hstream⟩
      rcases List.mem_append.mp ((hmem u).mp hu) with hu | hu
      · exact hbefore u hu
      · obtain ⟨f,hf,hfe⟩ := List.mem_map.mp hstream
        rcases hnone e.streamId with hnil | hnil
        · exact absurd hfe (contribution_eq_nil_iff.mp hnil f hf)
        · exact absurd rfl (contribution_eq_nil_iff.mp (List.flatMap_eq_nil_iff.mp hnil u hu) e he)
    · intro hlast s
      by_cases hnil : contribution s t = []
      · exact .inl hnil
      · refine .inr (List.flatMap_eq_nil_iff.mpr fun u hu => contribution_eq_nil_iff.mpr ?_)
        intro e he hes
        have hshared : s ∈ t.events.map EventEnvelope.streamId := by
          by_contra hnot
          refine hnil (contribution_eq_nil_iff.mpr fun f hf hfs => hnot ?_)
          exact List.mem_map.mpr ⟨f,hf,hfs⟩
        have hle := hlast u ((hmem u).mpr (List.mem_append_right _ hu)) ⟨e,he,hes ▸ hshared⟩
        exact absurd (hafter u hu) (not_lt_of_ge hle)
  unfold StreamsMatch
  rw [forall_congr' hpart,forall_and,hlast]

/-- What the live read model always keeps: all but the order within the streams. -/
structure Synced (minted : List Uuid) (store : FileEventStore Value) : Prop where
  sound : Sound minted store
  logged : Logged store
  current : Current store
  covered : ∀ e ∈ eventsOf store.files, ∃ position, (position,e) ∈ store.index.byIngestion
  tips : store.index.tips = computeTips store.index.headers
  live : ∀ s, ∀ e ∈ store.index.streamEvents s, e ∈ eventsOf store.files

theorem Synced.mono (h : Synced minted store) (ids : List Uuid) : Synced (minted ++ ids) store :=
  ⟨h.sound.mono ids,h.logged,h.current,h.covered,h.tips,h.live⟩

theorem synced_reopen (hsound : Sound minted store) (hlogged : Logged store) :
    Synced minted store.reopen := by
  obtain ⟨hlogged',hcurrent,_,hall⟩ := hlogged.reopen
  refine ⟨hsound.reopen,hlogged',hcurrent,fun e he => ?_,rfl,fun s e he => ?_⟩
  · rw [hcurrent.shown]
    exact hall e he
  · rw [reopen_streamEvents hsound.nodup] at he
    obtain ⟨t,ht,he⟩ := List.mem_flatMap.mp he
    exact eventsOf_subset ((canonicalOrder_perm _).mem_iff.mp ht) (mem_contribution he)

theorem Synced.byIngestion_eq (h : Synced minted store) :
    store.index.byIngestion = store.reopen.index.byIngestion := by
  obtain ⟨hlogged',hcurrent,hext,_⟩ := h.logged.reopen
  obtain ⟨more,hmore,_⟩ := h.logged.grows hlogged' hext
  have honce := hlogged'.ingested_once
  rw [hmore,List.map_append,List.nodup_append] at honce
  have hnone : more = [] := by
    refine List.eq_nil_iff_forall_not_mem.mpr fun p hp => ?_
    have hfile : p.2 ∈ eventsOf store.files := by
      have hmem : p ∈ ingested store.reopen.files store.reopen.ingestionLog := by
        rw [hmore]
        exact List.mem_append_right _ hp
      obtain ⟨_,_,_,he⟩ := (mem_ingested hlogged'.distinct).mp hmem
      exact he
    obtain ⟨position,hposition⟩ := h.covered p.2 hfile
    rw [h.current.shown] at hposition
    exact honce.2.2 _ (List.mem_map_of_mem hposition) _ (List.mem_map_of_mem hp) rfl
  rw [hcurrent.shown,hmore,hnone,List.append_nil,h.current.shown]

/-- The live read model is the one that an open would build from the directory and its log. -/
def MatchesRebuild (store : FileEventStore Value) : Prop :=
  StreamsMatch store ∧ store.index.tips = store.reopen.index.tips ∧
  store.index.byIngestion = store.reopen.index.byIngestion

theorem Synced.matchesRebuild_iff (h : Synced minted store) :
    MatchesRebuild store ↔ StreamsMatch store := by
  refine ⟨And.left,fun hstreams => ⟨hstreams,?_,h.byIngestion_eq⟩⟩
  rw [h.tips,reopen_tips]
  exact computeTips_congr h.sound.headers

theorem Synced.commit {minted' : List Uuid} {t : Transaction Value} {tips : Headers → List Uuid}
    (h : Synced minted store) (h' : Sound minted' (store.commit t tips))
    (htips : tips (extend store.index.headers t.header) =
      computeTips (extend store.index.headers t.header))
    (hdistinct : Distinct (store.files ++ [t])) : Synced minted' (store.commit t tips) := by
  have htaken := h.current.takesIn_commit h.logged tips hdistinct
  refine ⟨h',htaken.logged,htaken.current,fun e he => ?_,?_,fun s e he => ?_⟩
  · rcases htaken.shown e he with he | hshown
    · obtain ⟨position,hposition⟩ := h.covered e he
      obtain ⟨more,hmore,_⟩ := h.logged.grows htaken.logged htaken.extension
      rw [h.current.shown] at hposition
      refine ⟨position,?_⟩
      rw [htaken.current.shown,hmore]
      exact List.mem_append_left _ hposition
    · exact hshown
  · rw [commit_tips,commit_headers]
    exact htips
  · rw [commit_files,eventsOf_append]
    rw [commit_streamEvents] at he
    rcases List.mem_append.mp he with he | he
    · exact List.mem_append_left _ (h.live s e he)
    · exact List.mem_append_right _ (mem_contribution he)

theorem computeTips_extend (h : Synced minted store) {header : TransactionHeader}
    (hfresh : header.transactionId ∉ store.index.headers)
    (hparents : header.parentTransactionIds = store.index.tips) :
    [header.transactionId] = computeTips (extend store.index.headers header) := by
  have hmem : ∀ id, id ∈ computeTips (extend store.index.headers header) ↔
      id ∈ [header.transactionId] := by
    intro id
    rw [mem_computeTips,List.mem_singleton]
    constructor
    · rintro ⟨hid,hnone⟩
      rcases mem_extend.mp hid with hid | hid
      · exact hid
      · exfalso
        have hne : id ≠ header.transactionId := fun he => hfresh (he ▸ hid)
        refine hnone header.transactionId ?_
        rw [parentsOf_extend_self,hparents]
        refine h.sound.tipsCover hid fun x hx => hnone x ?_
        have hxne : x ≠ header.transactionId := fun he => hfresh (he ▸ mem_of_parentsOf hx)
        rwa [parentsOf_extend_ne hxne]
    · rintro rfl
      refine ⟨mem_extend.mpr (.inl rfl),fun x hx => ?_⟩
      by_cases hxid : x = header.transactionId
      · rw [hxid,parentsOf_extend_self,hparents] at hx
        exact hfresh (h.sound.tips hx)
      · rw [parentsOf_extend_ne hxid] at hx
        exact hfresh (h.sound.wellFormed.closed hx)
  have hnodup : (computeTips (extend store.index.headers header)).Nodup :=
    (List.perm_insertionSort _ _).nodup_iff.mpr ((AList.nodupKeys _).filter _)
  have hperm := (List.perm_ext_iff_of_nodup hnodup (List.nodup_singleton _)).mpr hmem
  exact (List.perm_singleton.mp hperm).symm

theorem sortsLast_tips (h : Sound minted store) (streams : List String) :
    SortsLast store store.index.tips streams := by
  intro u hu _
  have hmem : u.id ∈ store.index.headers :=
    h.mem_headers hu
  obtain ⟨tip,htip,hbelow⟩ := h.below_tips hmem
  have hle := depth_le_of_ancestorOrSelf h.wellFormed (acyclic_of_sound h) hbelow
  exact hle.trans (depth_lt_depthOver htip (h.tips htip)).le

/-- What joined the files was written later than all before it. -/
def WrittenInOrder (before after : List (Transaction Value)) : Prop :=
  ((after.drop before.length).Pairwise fun t u => t.header.createdAt < u.header.createdAt) ∧
  ∀ u ∈ after.drop before.length, ∀ t ∈ before, t.header.createdAt < u.header.createdAt

instance (before after : List (Transaction Value)) : Decidable (WrittenInOrder before after) :=
  inferInstanceAs (Decidable (_ ∧ _))

theorem writtenInOrder_cons {before more : List (Transaction Value)} {t : Transaction Value}
    (h : WrittenInOrder before (before ++ [t] ++ more)) :
    (∀ u ∈ before, u.header.createdAt < t.header.createdAt) ∧
      WrittenInOrder (before ++ [t]) (before ++ [t] ++ more) := by
  obtain ⟨hpairwise,hlater⟩ := h
  rw [List.append_assoc,List.drop_left] at hpairwise hlater
  obtain ⟨hfirst,hpairwise⟩ := List.pairwise_cons.mp hpairwise
  refine ⟨hlater t List.mem_cons_self,?_⟩
  rw [WrittenInOrder,List.drop_left]
  refine ⟨hpairwise,fun u hu v hv => ?_⟩
  rcases List.mem_append.mp hv with hv | hv
  · exact hlater u (List.mem_cons_of_mem _ hu) v hv
  · rw [List.mem_singleton.mp hv]
    exact hfirst u hu

theorem writtenInOrder_singleton {before : List (Transaction Value)} {t : Transaction Value}
    (h : WrittenInOrder before (before ++ [t])) :
    ∀ u ∈ before, u.header.createdAt < t.header.createdAt := by
  rw [← List.append_nil (before ++ [t])] at h
  exact (writtenInOrder_cons h).1

/-- Transactions join at the end of the files, their events at the end of the live streams. -/
def Pushes (store later : FileEventStore Value) : Prop :=
  ∃ new, later.files = store.files ++ new ∧ ∀ s,
    later.index.streamEvents s = store.index.streamEvents s ++ new.flatMap (contribution s)

theorem Pushes.refl (store : FileEventStore Value) : Pushes store store := ⟨[],by simp⟩

theorem Pushes.trans {a b c : FileEventStore Value} (hab : Pushes a b) (hbc : Pushes b c) :
    Pushes a c := by
  obtain ⟨new,hfiles,hstreams⟩ := hab
  obtain ⟨new',hfiles',hstreams'⟩ := hbc
  refine ⟨new ++ new',?_,fun s => ?_⟩
  · rw [hfiles',hfiles,List.append_assoc]
  · rw [hstreams',hstreams,List.flatMap_append,List.append_assoc]

theorem pushes_commit (store : FileEventStore Value) (t : Transaction Value)
    (tips : Headers → List Uuid) : Pushes store (store.commit t tips) := by
  refine ⟨[t],rfl,fun s => ?_⟩
  rw [commit_streamEvents]
  simp [contribution]

theorem Synced.appendEvents (h : Synced minted store) (parse : Raw → Option Value) {stamp : Stamp}
    (writes : StreamWrites Any Raw) (hfresh : stamp.transactionId ∉ minted)
    (hdistinct : Distinct (appendEvents parse store stamp writes).2.files)
    (horder : WrittenInOrder store.files (appendEvents parse store stamp writes).2.files) :
    Synced (minted ++ [stamp.transactionId]) (appendEvents parse store stamp writes).2 ∧
    Pushes store (appendEvents parse store stamp writes).2 ∧
    (StreamsMatch (appendEvents parse store stamp writes).2 ↔ StreamsMatch store) := by
  have hsound := h.sound.appendEvents parse writes hfresh
  rcases appendEvents_store parse store stamp writes with hrun | ⟨t,hprep,hrun⟩
  · rw [hrun]
    exact ⟨h.mono _,.refl _,Iff.rfl⟩
  · obtain ⟨hid,_,hparents,_,_⟩ := prepareAppend_eq_ok hprep
    simp only [hrun] at hdistinct horder hsound ⊢
    have hnew : t.id ∉ store.index.headers := fun hmem => hfresh (hid ▸ h.sound.drawn hmem)
    have hclock := writtenInOrder_singleton horder
    refine ⟨h.commit hsound (computeTips_extend h hnew hparents) hdistinct,pushes_commit _ _ _,?_⟩
    rw [streamsMatch_commit_iff h.sound hsound ?_ hclock hdistinct h.live,and_iff_left]
    · rw [hparents]
      exact sortsLast_tips h.sound _
    · exact fun p hp => h.sound.tips (hparents ▸ hp)

section Merges

variable (form : ValueForm Value E) (resolver : ForkContext E → ResolutionOutcome E)
  (stamp : ℕ → Stamp)

/-- The merges that the loop writes, each with the store at its turn and the streams it is about. -/
def mergesOf : List Fork → FileEventStore Value → ReconcileReport →
    List (FileEventStore Value × Fork × List String)
  | [], _, _ => []
  | fork :: forks, store, report =>
    match buildForkContext form store fork with
    | .error _ => []
    | .ok context =>
      match resolver context with
      | .unresolvable _ => mergesOf forks store
          { report with unresolved := report.unresolved ++ [fork.streamId] }
      | .resolve events =>
        match writeMergeTransaction form store (stamp report.resolved) fork events with
        | .error _ => []
        | .ok merged => (store,fork,events.map fun e => (form.streamId e).value) ::
            mergesOf forks merged { report with resolved := report.resolved+1 }

def MergesSortLast (forks : List Fork) (store : FileEventStore Value) (report : ReconcileReport) :
    Prop :=
  ∀ m ∈ mergesOf form resolver stamp forks store report, SortsLast m.1 m.2.1.transactions m.2.2

instance (forks : List Fork) (store : FileEventStore Value) (report : ReconcileReport) :
    Decidable (MergesSortLast form resolver stamp forks store report) :=
  inferInstanceAs (Decidable (∀ m ∈ _, _))

variable {form resolver stamp}

theorem Synced.writeMerge (h : Synced minted store) {stamp : Stamp} {fork : Fork} {events : List E}
    {merged : FileEventStore Value} (hfresh : stamp.transactionId ∉ minted)
    (hheads : ∀ p ∈ fork.transactions, p ∈ store.index.headers)
    (hrun : writeMergeTransaction form store stamp fork events = .ok merged)
    {more : List (Transaction Value)} {files : List (Transaction Value)}
    (hfiles : files = merged.files ++ more) (hdistinct : Distinct files)
    (horder : WrittenInOrder store.files files) :
    Synced (minted ++ [stamp.transactionId]) merged ∧ Pushes store merged ∧
    WrittenInOrder merged.files files ∧
    (StreamsMatch merged ↔ StreamsMatch store ∧
      SortsLast store fork.transactions (events.map fun e => (form.streamId e).value)) := by
  have hsound := h.sound.writeMerge hfresh hheads hrun
  obtain ⟨items,hitems,rfl⟩ := writeMerge_eq_ok hrun
  let t := mergeTransaction store stamp fork items
  rw [commit_files] at hfiles
  subst hfiles
  obtain ⟨hclock,horder'⟩ := writtenInOrder_cons horder
  have hstreams : t.events.map EventEnvelope.streamId =
      events.map fun e => (form.streamId e).value := by
    have hkeys := congrArg (List.map Prod.fst)
      (buildEnvelopes_items store.index stamp.eventId items)
    rw [List.map_map] at hkeys
    exact hkeys.trans (mergeItems_streams hitems)
  refine ⟨h.commit hsound rfl hdistinct.left,pushes_commit _ _ _,horder',?_⟩
  rw [streamsMatch_commit_iff h.sound hsound hheads hclock hdistinct.left h.live,hstreams]
  rfl

theorem Synced.reconcileForks {forks : List Fork} (report : ReconcileReport)
    (h : Synced minted store) (hheads : ∀ f ∈ forks, ∀ p ∈ f.transactions, p ∈ store.index.headers)
    (hids : (drawnIds stamp report.resolved forks.length).Nodup)
    (hfresh : ∀ id ∈ drawnIds stamp report.resolved forks.length, id ∉ minted)
    (hdistinct : Distinct (reconcileForks form resolver stamp forks store report).2.files)
    (horder : WrittenInOrder store.files
      (reconcileForks form resolver stamp forks store report).2.files) :
    Synced (minted ++ drawnIds stamp report.resolved forks.length)
      (reconcileForks form resolver stamp forks store report).2 ∧
    Pushes store (reconcileForks form resolver stamp forks store report).2 ∧
    (StreamsMatch (reconcileForks form resolver stamp forks store report).2 ↔
      StreamsMatch store ∧ MergesSortLast form resolver stamp forks store report) := by
  induction forks generalizing minted store report with
  | nil => exact ⟨h.mono _,.refl _,(and_iff_left (List.forall_mem_nil _)).symm⟩
  | cons fork forks ih =>
    simp only [FileStore.reconcileForks,MergesSortLast,mergesOf] at hdistinct horder ⊢
    cases hctx : buildForkContext form store fork with
    | error e => exact ⟨h.mono _,.refl _,(and_iff_left (List.forall_mem_nil _)).symm⟩
    | ok context =>
      simp only [hctx] at hdistinct horder
      cases hres : resolver context with
      | unresolvable reason =>
        simp only [List.length_cons,hres] at hids hfresh hdistinct horder ⊢
        rw [drawnIds_succ'] at hids hfresh ⊢
        obtain ⟨hsynced,hpushes,hiff⟩ := ih
          { report with unresolved := report.unresolved ++ [fork.streamId] } h
          (fun f hf => hheads f (List.mem_cons_of_mem _ hf)) (List.nodup_append.mp hids).1
          (fun id hid => hfresh id (List.mem_append_left _ hid)) hdistinct horder
        rw [← List.append_assoc]
        exact ⟨hsynced.mono _,hpushes,hiff⟩
      | resolve events =>
        simp only [hres] at hdistinct horder
        cases hrun : writeMergeTransaction form store (stamp report.resolved) fork events with
        | error e =>
          simp only [hres,hrun]
          exact ⟨h.mono _,.refl _,(and_iff_left (List.forall_mem_nil _)).symm⟩
        | ok merged =>
          simp only [List.length_cons,hres,hrun] at hids hfresh hdistinct horder ⊢
          rw [drawnIds_succ] at hids hfresh ⊢
          rw [List.append_cons]
          obtain ⟨more,hmore⟩ := (reconcileForks_extends form resolver stamp forks merged
            { report with resolved := report.resolved+1 }).files
          obtain ⟨hsynced,hpushes,horder',hiff⟩ := h.writeMerge (hfresh _ List.mem_cons_self)
            (hheads fork List.mem_cons_self) hrun hmore hdistinct horder
          have hheads' : ∀ f ∈ forks, ∀ p ∈ f.transactions, p ∈ merged.index.headers :=
            fun f hf p hp => writeMerge_headers hrun (hheads f (List.mem_cons_of_mem _ hf) p hp)
          obtain ⟨hsynced',hpushes',hiff'⟩ := ih { report with resolved := report.resolved+1 }
            hsynced hheads' (List.nodup_cons.mp hids).2 (not_mem_tail hids hfresh) hdistinct horder'
          refine ⟨hsynced',hpushes.trans hpushes',?_⟩
          rw [hiff',hiff,and_assoc,List.forall_mem_cons]
          rfl

variable (form resolver stamp) in
/-- The merges that a reconciliation of this store writes all sort last. -/
def ReconcileSortsLast (store : FileEventStore Value) : Prop :=
  ∀ forks ∈ store.detectForks.toOption, MergesSortLast form resolver stamp forks store ⟨0,[]⟩

instance (store : FileEventStore Value) :
    Decidable (ReconcileSortsLast form resolver stamp store) :=
  inferInstanceAs (Decidable (∀ forks ∈ store.detectForks.toOption, _))

theorem Synced.reconcile (h : Synced minted store)
    (hids : (drawnIds stamp 0 (forkCount store)).Nodup)
    (hfresh : ∀ id ∈ drawnIds stamp 0 (forkCount store), id ∉ minted)
    (hdistinct : Distinct (reconcile form resolver stamp store).2.files)
    (horder : WrittenInOrder store.files (reconcile form resolver stamp store).2.files) :
    Synced (minted ++ drawnIds stamp 0 (forkCount store))
      (reconcile form resolver stamp store).2 ∧
    Pushes store (reconcile form resolver stamp store).2 ∧
    (StreamsMatch (reconcile form resolver stamp store).2 ↔
      StreamsMatch store ∧ ReconcileSortsLast form resolver stamp store) := by
  unfold FileStore.reconcile ReconcileSortsLast forkCount at *
  cases hdetect : store.detectForks with
  | error e => exact ⟨h.mono _,.refl _,(and_iff_left fun _ hnone => nomatch hnone).symm⟩
  | ok forks =>
    simp only [hdetect] at hids hfresh hdistinct horder
    simp only [Except.toOption,Option.mem_some_iff,forall_eq']
    exact h.reconcileForks ⟨0,[]⟩ (h.sound.fork_heads hdetect) hids hfresh hdistinct horder

end Merges

end Store

/-- An open store and the transaction ids drawn so far anywhere. -/
structure Session (Value : Type) where
  store : FileEventStore Value
  minted : List Uuid

inductive Label (Any Raw Value E : Type)
  | append (writes : StreamWrites Any Raw) (stamp : Stamp)
  | reconcile (form : ValueForm Value E) (resolver : ForkContext E → ResolutionOutcome E)
      (stamp : ℕ → Stamp)

namespace Session

/-- Drawn identifiers are new, and the clock has gone on since the last write. -/
def become (p : Session Value) (store : FileEventStore Value) (ids : List Uuid) :
    Option (Session Value) :=
  if Distinct store.files ∧ WrittenInOrder p.store.files store.files then
    some ⟨store,p.minted ++ ids⟩
  else none

def step (parse : Raw → Option Value) (p : Session Value) :
    Label Any Raw Value E → Option (Session Value)
  | .append writes stamp =>
    if stamp.transactionId ∈ p.minted then none
    else p.become (appendEvents parse p.store stamp writes).2 [stamp.transactionId]
  | .reconcile form resolver stamp =>
    let ids := drawnIds stamp 0 (forkCount p.store)
    if ids.Nodup ∧ ∀ id ∈ ids, id ∉ p.minted then
      p.become (FileStore.reconcile form resolver stamp p.store).2 ids
    else none

end Session

/-- The store is opened on the files that some working copy can come to have. -/
def system (ι Any E : Type) [DecidableEq ι] (parse : Raw → Option Value) :
    System (Session Value) (Label Any Raw Value E) where
  init p := ∃ (w : World ι Value) (r : ι) (lines : List (Uuid × ℕ)),
    Reachable (FileStore.system Any E parse) w ∧ p.minted = w.minted ∧
    Logged { w.replica r with ingestionLog := lines } ∧
    p.store = ({ w.replica r with ingestionLog := lines } : FileEventStore Value).reopen
  step := Session.step parse

/-- What a call must not do: write a merge that others in its streams will stand behind. -/
def KeepsOrder (p : Session Value) : Label Any Raw Value E → Prop
  | .append _ _ => True
  | .reconcile form resolver stamp => ReconcileSortsLast form resolver stamp p.store

instance (p : Session Value) : ∀ l : Label Any Raw Value E, Decidable (KeepsOrder p l)
  | .append _ _ => isTrue trivial
  | .reconcile form resolver stamp =>
    inferInstanceAs (Decidable (ReconcileSortsLast form resolver stamp p.store))

section Runs

variable [DecidableEq ι] {parse : Raw → Option Value} {p q : Session Value}

theorem become_eq_some {store : FileEventStore Value} {ids : List Uuid}
    (h : p.become store ids = some q) : Distinct store.files ∧
      WrittenInOrder p.store.files store.files ∧ q = ⟨store,p.minted ++ ids⟩ := by
  unfold Session.become at h
  split_ifs at h with hnew
  exact ⟨hnew.1,hnew.2,(Option.some.inj h).symm⟩

theorem synced_step (h : Synced p.minted p.store) {l : Label Any Raw Value E}
    (hstep : (system ι Any E parse).step p l = some q) :
    Synced q.minted q.store ∧ Pushes p.store q.store ∧
      (StreamsMatch q.store ↔ StreamsMatch p.store ∧ KeepsOrder p l) := by
  cases l with
  | append writes stamp =>
    simp only [system,Session.step] at hstep
    split_ifs at hstep with hfresh
    obtain ⟨hdistinct,horder,rfl⟩ := become_eq_some hstep
    obtain ⟨hsynced,hpushes,hiff⟩ := h.appendEvents parse writes hfresh hdistinct horder
    exact ⟨hsynced,hpushes,hiff.trans (and_iff_left trivial).symm⟩
  | reconcile form resolver stamp =>
    simp only [system,Session.step] at hstep
    split_ifs at hstep with hfresh
    obtain ⟨hdistinct,horder,rfl⟩ := become_eq_some hstep
    exact h.reconcile hfresh.1 hfresh.2 hdistinct horder

theorem synced_exec (h : Synced p.minted p.store) {labels : List (Label Any Raw Value E)}
    (hrun : exec (system ι Any E parse) p labels = some q) :
    Synced q.minted q.store ∧ (StreamsMatch q.store ↔
      StreamsMatch p.store ∧ AllSteps (system ι Any E parse) KeepsOrder p labels) := by
  induction labels generalizing p with
  | nil =>
    obtain rfl := Option.some.inj hrun
    exact ⟨h,(and_iff_left trivial).symm⟩
  | cons l labels ih =>
    obtain ⟨r,hstep,hrest⟩ := Option.bind_eq_some_iff.mp hrun
    obtain ⟨hr,_,hone⟩ := synced_step h hstep
    obtain ⟨hq,hiff⟩ := ih hr hrest
    refine ⟨hq,?_⟩
    rw [hiff,hone,and_assoc]
    simp only [AllSteps,hstep,Option.some.injEq,forall_eq']

theorem synced_init (h : (system ι Any E parse).init p) :
    Synced p.minted p.store ∧ StreamsMatch p.store := by
  obtain ⟨w,r,lines,hw,hminted,hlogged,hstore⟩ := h
  have hs := World.sound_of_reachable hw r
  have hsound : Sound w.minted { w.replica r with ingestionLog := lines } :=
    ⟨hs.nodup,hs.headers,hs.wellFormed,hs.drawn,hs.ranked,hs.tips,hs.tipsCover⟩
  rw [hminted,hstore]
  exact ⟨synced_reopen hsound hlogged,streamsMatch_reopen hs.nodup⟩

/-- In every run on a store that was opened on merged files, the live streams, tips and ingestion
order are those of a rebuild exactly as long as every merge sorts last in its streams; then what a
call writes stands last in its streams, before and after a reopen. -/
theorem live_index_iff {labels : List (Label Any Raw Value E)}
    (hp : (system ι Any E parse).init p)
    (hrun : exec (system ι Any E parse) p labels = some q) :
    (MatchesRebuild q.store ↔ AllSteps (system ι Any E parse) KeepsOrder p labels) ∧
    ∀ l u, (system ι Any E parse).step q l = some u → MatchesRebuild u.store →
      ∃ new, u.store.files = q.store.files ++ new ∧ ∀ s,
        u.store.index.streamEvents s =
          q.store.index.streamEvents s ++ new.flatMap (contribution s) ∧
        u.store.reopen.index.streamEvents s =
          q.store.reopen.index.streamEvents s ++ new.flatMap (contribution s) := by
  obtain ⟨hsynced,hstart⟩ := synced_init hp
  obtain ⟨hq,hiff⟩ := synced_exec hsynced hrun
  refine ⟨?_,fun l u hstep hmatches => ?_⟩
  · rw [hq.matchesRebuild_iff,hiff,and_iff_right hstart]
  · obtain ⟨hu,⟨new,hfiles,hstreams⟩,hone⟩ := synced_step hq hstep
    have hbefore : StreamsMatch q.store := (hone.mp hmatches.1).1
    refine ⟨new,hfiles,fun s => ⟨hstreams s,?_⟩⟩
    rw [← hmatches.1 s,← hbefore s]
    exact hstreams s

end Runs

section Scenarios
open TwoCopies

def clock (n : ℕ) : Stamp :=
  { stamp n with createdAt := "2024-05-01T12:00:0" ++ toString n ++ "+00:00" }

def depositAt (version : ℕ) : StreamWrites ℕ ℕ :=
  ⟨[⟨account1,5,"Deposited",5⟩],AList.insert account1 version ∅,mem_insert_of_mem_singleton⟩

/-- One copy writes so many times, the other one once; then it takes in the files of the first. -/
def branch (length : ℕ) : List (Action Bool ℕ ℕ ℕ ℕ) :=
  (List.range length).map (fun n => .append false (depositAt n) (clock n)) ++
    [.append true (depositAt 0) (clock length),.merge true false]

def session (w : World Bool ℕ) : Session ℕ := ⟨(w.replica true).reopen,w.minted⟩

abbrev sessions : System (Session ℕ) (Label ℕ ℕ ℕ ℕ) := system Bool ℕ ℕ some

theorem session_init {w : World Bool ℕ} (hw : Reachable twoCopies w)
    (hlogged : Logged (w.replica true)) : sessions.init (session w) :=
  ⟨w,true,(w.replica true).ingestionLog,hw,rfl,hlogged,rfl⟩

def mergeAt (n : ℕ) : Label ℕ ℕ ℕ ℕ :=
  .reconcile deposits (fun _ => .resolve [7]) fun k => clock (n+k)

/-- The merge of a branch of three events is read in front of the third one once the store is opened
again, while the live read model has it last. -/
theorem merge_moves_on_reopen :
    ¬ ∀ (p q : Session ℕ) (labels : List (Label ℕ ℕ ℕ ℕ)), sessions.init p →
      exec sessions p labels = some q → MatchesRebuild q.store := by
  intro hall
  have hworld : ((exec twoCopies start (branch 3)).map fun w => decide (Logged (w.replica true))) =
      some true := by decide +kernel
  have hmerged : ((exec twoCopies start (branch 3)).bind fun w =>
      (exec sessions (session w) [mergeAt 4]).map fun q =>
        decide ((q.store.index.streamEvents "account-1").map IndexedEvent.eventId =
          (q.store.reopen.index.streamEvents "account-1").map IndexedEvent.eventId)) =
      some false := by decide +kernel
  obtain ⟨w,hw,hlogged⟩ := Option.map_eq_some_iff.mp hworld
  rw [hw,Option.bind_some] at hmerged
  obtain ⟨q,hq,hdiffer⟩ := Option.map_eq_some_iff.mp hmerged
  have hinit := session_init (start_reachable.exec hw) (of_decide_eq_true hlogged)
  have hstreams := (hall _ q _ hinit hq).1 "account-1"
  exact of_decide_eq_false hdiffer (congrArg (List.map IndexedEvent.eventId) hstreams)

/-- The merge of two branches of one event each stays where it is, also below a later append. -/
theorem live_index_iff_short : ∃ p q : Session ℕ, sessions.init p ∧
    exec sessions p [mergeAt 2,.append (depositAt 3) (clock 3)] = some q ∧
    MatchesRebuild q.store := by
  have hworld : ((exec twoCopies start (branch 1)).map fun w => decide (Logged (w.replica true))) =
      some true := by decide +kernel
  have hrun : ((exec twoCopies start (branch 1)).bind fun w =>
      (exec sessions (session w) [mergeAt 2,.append (depositAt 3) (clock 3)]).map fun _ =>
        decide (AllSteps sessions KeepsOrder (session w)
          [mergeAt 2,.append (depositAt 3) (clock 3)])) = some true := by decide +kernel
  obtain ⟨w,hw,hlogged⟩ := Option.map_eq_some_iff.mp hworld
  rw [hw,Option.bind_some] at hrun
  obtain ⟨q,hq,hkeeps⟩ := Option.map_eq_some_iff.mp hrun
  have hinit := session_init (start_reachable.exec hw) (of_decide_eq_true hlogged)
  exact ⟨_,q,hinit,hq,(live_index_iff hinit hq).1.mpr (of_decide_eq_true hkeeps)⟩

end Scenarios

end LiveIndex
end FileStore
end EventCore
