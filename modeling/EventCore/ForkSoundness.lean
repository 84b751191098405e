import EventCore.IngestionOrder
import EventCore.Replicas
import Mathlib.Data.List.Flatten

/-! What a reported fork says about its transactions. A transaction records a base for every stream
that its batch registers, but only an event in a stream moves the head of it on. So two
transactions of one chain can record the same base, if the first has only read the stream. -/
namespace EventCore
namespace ForkSoundness
open FileStore GraphSearch Runs

variable {Any Raw Value ι : Type}

/-- Appends by any replica, and unions of the files of two of them. -/
inductive Label (ι Any Raw : Type)
  | append (r : ι) (writes : StreamWrites Any Raw) (stamp : Stamp)
  | reopen (r : ι)
  | union (r source : ι)

def Label.action : Label ι Any Raw → Action ι Any Raw Value Unit
  | .append r writes stamp => .append r writes stamp
  | .reopen r => .reopen r
  | .union r source => .merge r source

def system [DecidableEq ι] (Any : Type) (parse : Raw → Option Value) :
    System (World ι Value) (Label ι Any Raw) where
  init := (FileStore.system Any Unit parse).init
  step w l := World.step parse w l.action

def Concurrent (headers : Headers) (a b : Uuid) : Prop :=
  ¬ Ancestor (parentsOf headers) a b ∧ ¬ Ancestor (parentsOf headers) b a

/-- What fork detection says is so: the transactions of a fork are concurrent, and there is no
fork among transactions of one replica. -/
structure ReportsSound (w : World ι Value) : Prop where
  concurrent : ∀ r forks, (w.replica r).detectForks = .ok forks → ∀ f ∈ forks,
    ∀ a ∈ f.transactions, ∀ b ∈ f.transactions, Concurrent (w.replica r).index.headers a b
  single : ∀ r replicaId, (∀ t ∈ (w.replica r).files, t.header.replicaId = replicaId) →
    (w.replica r).detectForks = .ok []

/-- A transaction has registered the stream at this version and has no event in it. -/
def OnlyRead (files : List (Transaction Value)) (s : StreamId) (version : StreamVersion) : Prop :=
  ∃ t ∈ files, t.header.streamBases.get? s.value = some version ∧
    ∀ e ∈ t.events, e.streamId ≠ s.value

/-- An append that goes through registers no stream at a version at which a transaction in its
folder has only read it. -/
def ReadsOnce (parse : Raw → Option Value) (w : World ι Value) : Label ι Any Raw → Prop
  | .append r writes _ => writes.entries = [] ∨ Rejected parse (w.replica r).index writes ∨
      ∀ s version, writes.expectedVersions.get? s = some version →
        ¬ OnlyRead (w.replica r).files s version
  | _ => True

theorem forall_expected_iff {expected : HashMap StreamId StreamVersion}
    {P : StreamId → StreamVersion → Prop} : (∀ p ∈ expected.entries, P p.1 p.2) ↔
      ∀ s version, expected.get? s = some version → P s version :=
  ⟨fun h s version hs => h ⟨s,version⟩ (HashMap.mem_entries_iff.mpr hs),
    fun h p hp => h p.1 p.2 (HashMap.mem_entries_iff.mp hp)⟩

instance (files : List (Transaction Value)) (s : StreamId) (version : StreamVersion) :
    Decidable (OnlyRead files s version) := inferInstanceAs (Decidable (∃ t ∈ files, _))

instance (parse : Raw → Option Value) (index : Index Value) (writes : StreamWrites Any Raw) :
    Decidable (Rejected parse index writes) :=
  decidable_of_iff (¬ ((∀ p ∈ writes.expectedVersions.entries, index.streamHead p.1.value = p.2) ∧
    ∀ entry ∈ writes.entries, parse entry.eventData ≠ none)) (by
      rw [@forall_expected_iff writes.expectedVersions fun s v => index.streamHead s.value = v,
        Rejected,not_and_or]
      push Not
      rfl)

instance (parse : Raw → Option Value) (w : World ι Value) :
    ∀ l : Label ι Any Raw, Decidable (ReadsOnce parse w l)
  | .append r writes _ =>
    have : Decidable (∀ s version, writes.expectedVersions.get? s = some version →
        ¬ OnlyRead (w.replica r).files s version) := decidable_of_iff _ forall_expected_iff
    inferInstanceAs (Decidable (_ ∨ _ ∨ _))
  | .reopen _ => isTrue trivial
  | .union _ _ => isTrue trivial

section Counts

def written (files : List (Transaction Value)) (s : String) : ℕ :=
  (files.flatMap Transaction.events).countP fun e => e.streamId = s

theorem written_concat (files : List (Transaction Value)) (t : Transaction Value) (s : String) :
    written (files ++ [t]) s = written files s + written [t] s := by
  rw [written,List.flatMap_append,List.countP_append]
  rfl

theorem written_singleton_pos {t : Transaction Value} {s : String}
    (h : ∃ e ∈ t.events, e.streamId = s) : 0 < written [t] s := by
  obtain ⟨e,he,hs⟩ := h
  refine List.countP_pos_iff.mpr ⟨e,?_,decide_eq_true hs⟩
  simpa using he

theorem written_mono {files more : List (Transaction Value)}
    (hnodup : (files.map Transaction.id).Nodup) (hsub : ∀ t ∈ files, t ∈ more) (s : String) :
    written files s ≤ written more s := by
  have hsubperm : files.Subperm more := (List.Nodup.of_map _ hnodup).subperm hsub
  obtain ⟨files',hperm,hsublist⟩ := hsubperm
  have hsame := (hperm.flatMap_right Transaction.events).countP_eq fun e => e.streamId = s
  rw [written,← hsame]
  exact (hsublist.flatMap _).countP_le

theorem reopen_streamHead {store : FileEventStore Value}
    (hnodup : (store.files.map Transaction.id).Nodup) (s : String) :
    store.reopen.index.streamHead s = written store.files s := by
  have hscan : store.reopen.index.streamEvents s =
      (canonicalEvents store.files).filter fun e => e.streamId = s :=
    scanIndex_streamEvents store.files store.ingestionLog s
  have hcount := (canonicalEvents_perm hnodup).countP_eq fun e => e.streamId = s
  rw [Index.streamHead,hscan,← List.countP_eq_length_filter,hcount,written,← List.map_flatMap,
    List.countP_map]
  rfl

theorem commit_streamHead (store : FileEventStore Value) (t : Transaction Value)
    (tips : Headers → List Uuid) (s : String) : (store.commit t tips).index.streamHead s =
      store.index.streamHead s + written [t] s := by
  rw [Index.streamHead,commit_streamEvents,List.length_append,← List.countP_eq_length_filter,
    List.countP_map,written,List.flatMap_singleton]
  rfl

end Counts

/-- All transactions there are, in the order they were written. -/
structure Lineage (ts : List (Transaction Value)) : Prop where
  nodup : (ts.map Transaction.id).Nodup
  wellFormed : WellFormed (headersOf ts)
  chained : ReplicasChained (headersOf ts)
  concurrent : ∀ {stream base a b}, Extending (headersOf ts) stream base a →
    Extending (headersOf ts) stream base b → ¬ Ancestor (parentsOf (headersOf ts)) a b

/-- A replica has some of them and all of its own; writing to a stream has moved its head on. -/
structure Copy (ts : List (Transaction Value)) (store : FileEventStore Value) : Prop where
  files : ∀ t ∈ store.files, t ∈ ts
  own : ∀ t ∈ ts, t.header.replicaId = store.replicaId → t ∈ store.files
  heads : ∀ s, store.index.streamHead s = written store.files s
  advanced : ∀ t ∈ store.files, ∀ s base, t.header.streamBases.get? s = some base →
    (∃ e ∈ t.events, e.streamId = s) → base < written store.files s

section Local

variable {ts : List (Transaction Value)} {store : FileEventStore Value} {minted : List Uuid}

variable (hl : Lineage ts) (h : Copy ts store) (hs : Sound minted store)
include hl h hs

theorem Copy.get?_eq {id : Uuid} (hid : id ∈ store.index.headers) :
    (headersOf ts).get? id = store.index.headers.get? id := by
  obtain ⟨header,hget⟩ := HashMap.exists_of_mem hid
  obtain ⟨t,ht,hid,hheader⟩ := hs.exists_file hget
  rw [hget]
  exact (headersOf_get? hl.nodup).mpr ⟨t,h.files t ht,hid,hheader⟩

theorem Copy.mem_headersOf {id : Uuid} (hid : id ∈ store.index.headers) : id ∈ headersOf ts := by
  obtain ⟨header,hget⟩ := HashMap.exists_of_mem hid
  exact HashMap.mem_of_get? ((h.get?_eq hl hs hid).trans hget)

theorem Copy.ancestor_iff {a d : Uuid} (hd : d ∈ store.index.headers) :
    Ancestor (parentsOf (headersOf ts)) a d ↔ Ancestor (parentsOf store.index.headers) a d := by
  have hclosed : ∀ x y, x ∈ store.index.headers → y ∈ parentsOf store.index.headers x →
      y ∈ store.index.headers := fun _ _ _ hp => hs.wellFormed.closed hp
  refine ancestor_congr_closed hclosed (fun id hid => ?_) hd
  rw [parentsOf,parentsOf,h.get?_eq hl hs hid]

theorem Copy.extending {stream : String} {base : ℕ} {id : Uuid}
    (hext : Extending store.index.headers stream base id) :
    Extending (headersOf ts) stream base id := by
  have hid := extending_mem hext
  obtain ⟨header,hget,hbase⟩ := hext
  exact ⟨header,(h.get?_eq hl hs hid).trans hget,hbase⟩

theorem Copy.not_ancestor {stream : String} {base : ℕ} {a b : Uuid}
    (ha : Extending store.index.headers stream base a)
    (hb : Extending store.index.headers stream base b) :
    ¬ Ancestor (parentsOf store.index.headers) a b := by
  rw [← h.ancestor_iff hl hs (extending_mem hb)]
  exact hl.concurrent (h.extending hl hs ha) (h.extending hl hs hb)

theorem Copy.replicasChained : ReplicasChained store.index.headers := by
  intro a b ha hb hga hgb hrep hab
  have hma : a ∈ store.index.headers := HashMap.mem_of_get? hga
  have hmb : b ∈ store.index.headers := HashMap.mem_of_get? hgb
  rw [← h.ancestor_iff hl hs hmb,← h.ancestor_iff hl hs hma]
  have hga' := (h.get?_eq hl hs hma).trans hga
  have hgb' := (h.get?_eq hl hs hmb).trans hgb
  exact hl.chained a b ha hb hga' hgb' hrep hab

theorem Copy.below_tips_iff {a : Uuid} :
    Below (headersOf ts) store.index.tips a ↔ a ∈ store.index.headers := by
  constructor
  · rintro ⟨p,hp,rfl | hanc⟩
    · exact hs.tips hp
    · rw [h.ancestor_iff hl hs (hs.tips hp)] at hanc
      exact ancestor_mem hs.wellFormed hanc
  · intro ha
    obtain ⟨p,hp,hbelow⟩ := hs.below_tips ha
    refine ⟨p,hp,hbelow.imp id fun hanc => ?_⟩
    exact (h.ancestor_iff hl hs (hs.tips hp)).mpr hanc

theorem Copy.fork_concurrent {forks : List Fork} (hdetect : store.detectForks = .ok forks)
    {f : Fork} (hf : f ∈ forks) {a b : Uuid} (ha : a ∈ f.transactions) (hb : b ∈ f.transactions) :
    Concurrent store.index.headers a b := by
  have ha' := (fork_transactions_mem hs.wellFormed hdetect hf).mp ha
  have hb' := (fork_transactions_mem hs.wellFormed hdetect hf).mp hb
  exact ⟨h.not_ancestor hl hs ha' hb',h.not_ancestor hl hs hb' ha'⟩

theorem Copy.detectForks_single {replicaId : Uuid}
    (hsame : ∀ t ∈ store.files, t.header.replicaId = replicaId) : store.detectForks = .ok [] := by
  have hchain := h.replicasChained hl hs
  refine (detectForksIn_eq_nil hs.wellFormed).mpr ⟨hchain,fun stream base hforked => ?_⟩
  obtain ⟨⟨a,b,hab,ha,hb⟩,_⟩ := hforked
  have hrep : ∀ {id header}, store.index.headers.get? id = some header →
      header.replicaId = replicaId := by
    intro id header hget
    obtain ⟨t,ht,_,rfl⟩ := hs.exists_file hget
    exact hsame t ht
  have ha' := ha
  have hb' := hb
  obtain ⟨headerA,hga,_⟩ := ha
  obtain ⟨headerB,hgb,_⟩ := hb
  rcases hchain a b headerA headerB hga hgb ((hrep hga).trans (hrep hgb).symm) hab with hanc | hanc
  · exact h.not_ancestor hl hs ha' hb' hanc
  · exact h.not_ancestor hl hs hb' ha' hanc

end Local

section Append

theorem headersOf_concat (ts : List (Transaction Value)) (t : Transaction Value) :
    headersOf (ts ++ [t]) = extend (headersOf ts) t.header := by
  unfold headersOf
  rw [List.foldl_append]
  rfl

variable {ts : List (Transaction Value)} {store : FileEventStore Value} {minted : List Uuid}
  {parse : Raw → Option Value} {stamp : Stamp} {writes : StreamWrites Any Raw}
  {t : Transaction Value}

theorem Copy.no_base_twice (h : Copy ts store)
    (hprep : prepareAppend parse store.replicaId store.index stamp writes = .ok t)
    (honce : ∀ s version, writes.expectedVersions.get? s = some version →
      ¬ OnlyRead store.files s version) {u : Transaction Value} (hu : u ∈ store.files)
    {stream : String} {base : ℕ} (hbase : u.header.streamBases.get? stream = some base) :
    t.header.streamBases.get? stream ≠ some base := by
  intro ht
  obtain ⟨_,_,_,_,hcurrent⟩ := prepareAppend_eq_ok hprep
  obtain ⟨s,rfl,hexpected⟩ := (prepareAppend_bases hprep).mp ht
  have hwrote : ∃ e ∈ u.events, e.streamId = s.value := by
    by_contra hnone
    exact honce s base hexpected ⟨u,hu,hbase,fun e he hstream => hnone ⟨e,he,hstream⟩⟩
  have hlt := h.advanced u hu s.value base hbase hwrote
  rw [← h.heads,hcurrent s base hexpected] at hlt
  exact lt_irrefl _ hlt

theorem Lineage.append (hl : Lineage ts) (h : Copy ts store) (hs : Sound minted store)
    (hprep : prepareAppend parse store.replicaId store.index stamp writes = .ok t)
    (hnew : t.header.transactionId ∉ headersOf ts)
    (honce : ∀ s version, writes.expectedVersions.get? s = some version →
      ¬ OnlyRead store.files s version) : Lineage (ts ++ [t]) := by
  obtain ⟨_,hrep,hparents,_⟩ := prepareAppend_eq_ok hprep
  have hmem : ∀ p ∈ t.header.parentTransactionIds, p ∈ headersOf ts :=
    fun p hp => h.mem_headersOf hl hs (hs.tips (hparents ▸ hp))
  have hbelow : ∀ {a}, Below (headersOf ts) t.header.parentTransactionIds a ↔
      a ∈ store.index.headers := by
    rw [hparents]
    exact h.below_tips_iff hl hs
  constructor
  case nodup =>
    rw [List.map_append,List.map_singleton]
    refine List.Nodup.append hl.nodup (List.nodup_singleton _) ?_
    intro id hid hid'
    obtain ⟨u,hu,rfl⟩ := List.mem_map.mp hid
    exact hnew ((mem_headersOf hl.nodup).mpr ⟨u,hu,List.mem_singleton.mp hid'⟩)
  case wellFormed =>
    rw [headersOf_concat]
    exact hl.wellFormed.extend hmem (prepareAppend_valid hprep)
  case chained =>
    rw [headersOf_concat]
    refine (replicasChained_extend_iff hl.wellFormed hnew hmem).mpr ⟨hl.chained,?_⟩
    intro a ha hget hrep'
    obtain ⟨u,hu,rfl,rfl⟩ := (headersOf_get? hl.nodup).mp hget
    exact hbelow.mpr (hs.mem_headers (h.own u hu (hrep'.trans hrep)))
  case concurrent =>
    intro stream base a b ha hb
    rw [headersOf_concat] at ha hb ⊢
    have hold : ∀ {id}, Extending (extend (headersOf ts) t.header) stream base id →
        id ∈ headersOf ts → Extending (headersOf ts) stream base id := by
      intro id hext hid
      refine ((extending_extend hnew).mp hext).resolve_left ?_
      rintro ⟨rfl,_⟩
      exact hnew hid
    by_cases hbt : b = t.header.transactionId
    · -- the new transaction descends from what its replica has
      rw [hbt,ancestor_extend_self hl.wellFormed hnew hmem,hbelow]
      intro hah
      obtain ⟨header,hget,habase⟩ := hold ha (h.mem_headersOf hl hs hah)
      rw [h.get?_eq hl hs hah] at hget
      obtain ⟨u,hu,_,rfl⟩ := hs.exists_file hget
      rcases (extending_extend hnew).mp hb with ⟨_,htbase⟩ | hb
      · exact h.no_base_twice hprep honce hu habase htbase
      · exact hnew (hbt ▸ extending_mem hb)
    · rw [ancestor_extend_ne hl.wellFormed hnew hbt]
      intro hanc
      have hbmem := (mem_extend.mp (extending_mem hb)).resolve_left hbt
      exact hl.concurrent (hold ha (ancestor_mem hl.wellFormed hanc)) (hold hb hbmem) hanc

theorem Copy.append (h : Copy ts store)
    (hprep : prepareAppend parse store.replicaId store.index stamp writes = .ok t) :
    Copy (ts ++ [t]) (store.commit t fun _ => [t.id]) := by
  obtain ⟨_,_,_,_,hcurrent⟩ := prepareAppend_eq_ok hprep
  constructor
  case files =>
    intro u hu
    exact List.mem_append.mpr ((List.mem_append.mp hu).imp_left (h.files u))
  case own =>
    intro u hu hrep
    exact List.mem_append.mpr ((List.mem_append.mp hu).imp_left fun hu => h.own u hu hrep)
  case heads =>
    intro s
    rw [commit_streamHead,commit_files,written_concat,h.heads]
  case advanced =>
    intro u hu s base hbase hwrote
    rw [commit_files,written_concat]
    rcases List.mem_append.mp hu with hu | hu
    · exact (h.advanced u hu s base hbase hwrote).trans_le (Nat.le_add_right _ _)
    · obtain rfl := List.mem_singleton.mp hu
      have hpos := written_singleton_pos hwrote
      obtain ⟨streamId,rfl,hexpected⟩ := (prepareAppend_bases hprep).mp hbase
      rw [← h.heads,hcurrent streamId base hexpected]
      omega

/-- A stream that is registered again at a version at which it was only read makes a fork of an
ancestor and its descendant. -/
theorem Copy.reads_twice (hl : Lineage ts) (h : Copy ts store) (hs : Sound minted store)
    (hprep : prepareAppend parse store.replicaId store.index stamp writes = .ok t)
    (hfresh : t.id ∉ minted) {s : StreamId} {version : StreamVersion}
    (hexpected : writes.expectedVersions.get? s = some version)
    (hread : OnlyRead store.files s version) :
    let later := store.commit t fun _ => [t.id]
    ∃ forks, later.detectForks = .ok forks ∧ ∃ f ∈ forks, ∃ a ∈ f.transactions,
      ∃ b ∈ f.transactions, ¬ Concurrent later.index.headers a b := by
  intro later
  obtain ⟨u,hu,hubase,_⟩ := hread
  obtain ⟨_,_,hparents,_⟩ := prepareAppend_eq_ok hprep
  have hnew : t.header.transactionId ∉ store.index.headers := fun hm => hfresh (hs.drawn hm)
  have hmem : ∀ p ∈ t.header.parentTransactionIds, p ∈ store.index.headers :=
    fun p hp => hs.tips (hparents ▸ hp)
  have htbase : t.header.streamBases.get? s.value = some version :=
    (prepareAppend_bases hprep).mpr ⟨s,rfl,hexpected⟩
  have hs' : Sound (minted ++ [t.id]) later :=
    hs.commit_append hfresh hparents (prepareAppend_valid hprep)
  have hheaders : later.index.headers = extend store.index.headers t.header := commit_headers _ _ _
  have hbelow : ∀ {id}, id ∈ store.index.headers →
      Below store.index.headers t.header.parentTransactionIds id :=
    fun hid => hparents ▸ hs.below_tips hid
  have huext : Extending store.index.headers s.value version u.id :=
    ⟨u.header,hs.get?_of_mem hu,hubase⟩
  have hchained : ReplicasChained later.index.headers := by
    rw [hheaders]
    refine (replicasChained_extend_iff hs.wellFormed hnew hmem).mpr
      ⟨h.replicasChained hl hs,fun a header hget _ => hbelow (HashMap.mem_of_get? hget)⟩
  have hforked : Forked later.index.headers s.value version := by
    rw [hheaders]
    exact (forked_extend_iff hs.wellFormed hnew hmem).mpr (.inl ⟨htbase,u.id,huext⟩)
  rcases detectForksIn_spec hs'.wellFormed with ⟨hnot,_⟩ | ⟨_,forks,hrun,_,hforks⟩
  · exact absurd hchained hnot
  · let f : Fork := ⟨s,version,
      (candidatesOf later.index.headers s.value version).insertionSort (· ≤ ·)⟩
    have hf : f ∈ forks := (hforks f).mpr ⟨hforked,rfl⟩
    have hin := fun id => @fork_transactions_mem _ hs'.wellFormed _ hrun f hf id
    refine ⟨forks,hrun,f,hf,u.id,(hin u.id).mpr ?_,t.id,(hin t.id).mpr ?_,fun hconcurrent => ?_⟩
    · rw [hheaders]
      exact (extending_extend hnew).mpr (.inr huext)
    · rw [hheaders]
      exact (extending_extend hnew).mpr (.inl ⟨rfl,htbase⟩)
    · refine hconcurrent.1 ?_
      rw [hheaders]
      exact (ancestor_extend_self hs.wellFormed hnew hmem).mpr (hbelow (extending_mem huext))

theorem Copy.other (h : Copy ts store) (hrep : t.header.replicaId ≠ store.replicaId) :
    Copy (ts ++ [t]) store := by
  refine ⟨fun u hu => List.mem_append_left _ (h.files u hu),fun u hu hown => ?_,h.heads,h.advanced⟩
  rcases List.mem_append.mp hu with hu | hu
  · exact h.own u hu hown
  · rw [List.mem_singleton.mp hu] at hown
    exact absurd hown hrep

end Append

section Union

variable {ts : List (Transaction Value)} {mine theirs : FileEventStore Value} {minted : List Uuid}

theorem Copy.reopen (h : Copy ts mine) (hs : Sound minted mine) : Copy ts mine.reopen :=
  ⟨h.files,h.own,reopen_streamHead hs.nodup,h.advanced⟩

theorem Copy.union (hl : Lineage ts) (hm : Copy ts mine) (ht : Copy ts theirs)
    (hs : Sound minted mine) (hst : Sound minted theirs) :
    Copy ts
      ({ mine with files := unionFiles mine.files theirs.files } : FileEventStore Value).reopen := by
  have hnodup : ((unionFiles mine.files theirs.files).map Transaction.id).Nodup :=
    (hs.union hst).nodup
  have hmine : ∀ t ∈ mine.files, t ∈ unionFiles mine.files theirs.files :=
    fun t ht => List.mem_append_left _ ht
  have htheirs : ∀ t ∈ theirs.files, t ∈ unionFiles mine.files theirs.files := by
    intro t htt
    by_cases hid : t.id ∈ mine.files.map Transaction.id
    · obtain ⟨u,hu,hut⟩ := List.mem_map.mp hid
      have hsame : u = t :=
        List.inj_on_of_nodup_map hl.nodup (hm.files u hu) (ht.files t htt) hut
      exact hmine t (hsame ▸ hu)
    · exact List.mem_append_right _ (List.mem_filter.mpr ⟨htt,decide_eq_true hid⟩)
  constructor
  case files =>
    intro t htu
    rcases List.mem_append.mp htu with htm | htt
    · exact hm.files t htm
    · exact ht.files t (List.mem_filter.mp htt).1
  case own => exact fun t htt hrep => hmine t (hm.own t htt hrep)
  case heads => exact reopen_streamHead hnodup
  case advanced =>
    intro t htu s base hbase hwrote
    rcases List.mem_append.mp htu with htm | htt
    · exact (hm.advanced t htm s base hbase hwrote).trans_le (written_mono hs.nodup hmine s)
    · have hlt := ht.advanced t (List.mem_filter.mp htt).1 s base hbase hwrote
      exact hlt.trans_le (written_mono hst.nodup htheirs s)

end Union

section Run

/-- The transactions of all replicas, whose identities and ids are distinct. -/
structure History (w : World ι Value) (ts : List (Transaction Value)) : Prop where
  lineage : Lineage ts
  drawn : ∀ t ∈ ts, t.id ∈ w.minted
  identities : Function.Injective fun r => (w.replica r).replicaId
  copies : ∀ r, Copy ts (w.replica r)

variable {parse : Raw → Option Value} {w w' : World ι Value} {ts : List (Transaction Value)}

theorem History.reportsSound (h : History w ts) (hs : ∀ r, Sound w.minted (w.replica r)) :
    ReportsSound w where
  concurrent r _ hdetect _ hf _ ha _ hb :=
    (h.copies r).fork_concurrent h.lineage (hs r) hdetect hf ha hb
  single r _ hsame := (h.copies r).detectForks_single h.lineage (hs r) hsame

variable [DecidableEq ι]

theorem history_init (h : (system Any parse).init w) : History w [] := by
  obtain ⟨hminted,replicaId,hinjective,hcreate⟩ := h
  have hempty : headersOf ([] : List (Transaction Value)) = ∅ := rfl
  refine ⟨⟨List.nodup_nil,⟨?_,?_,?_⟩,?_,?_⟩,by simp,?_,fun r => ?_⟩
  · simp [hempty]
  · simp [hempty,parentsOf]
  · simp [hempty]
  · intro a b ha hb hga
    simp [hempty] at hga
  · rintro stream base a b ⟨_,hget,_⟩
    simp [hempty] at hget
  · intro r r' hrr
    simp only [hcreate] at hrr
    exact hinjective hrr
  · rw [hcreate]
    exact ⟨List.forall_mem_nil _,List.forall_mem_nil _,fun _ => rfl,List.forall_mem_nil _⟩

theorem History.update (h : History w ts) {r : ι} {store : FileEventStore Value}
    {minted : List Uuid} {ts' : List (Transaction Value)} (hlineage : Lineage ts')
    (hdrawn : ∀ t ∈ ts', t.id ∈ minted) (hrep : store.replicaId = (w.replica r).replicaId)
    (hcopy : Copy ts' store) (hothers : ∀ r', r' ≠ r → Copy ts' (w.replica r')) :
    History ⟨Function.update w.replica r store,minted⟩ ts' := by
  refine ⟨hlineage,hdrawn,?_,fun r' => ?_⟩
  · have hsame : (fun r' => (Function.update w.replica r store r').replicaId) =
        fun r' => (w.replica r').replicaId := funext (update_replicaId hrep)
    exact hsame ▸ h.identities
  · change Copy ts' (Function.update w.replica r store r')
    by_cases hr : r' = r
    · rwa [hr,Function.update_self]
    · rw [Function.update_of_ne hr]
      exact hothers r' hr

theorem History.append (h : History w ts) {r : ι} (hs : Sound w.minted (w.replica r))
    {stamp : Stamp} {writes : StreamWrites Any Raw} {t : Transaction Value}
    (hprep : prepareAppend parse (w.replica r).replicaId (w.replica r).index stamp writes = .ok t)
    (hfresh : stamp.transactionId ∉ w.minted)
    (honce : ∀ s version, writes.expectedVersions.get? s = some version →
      ¬ OnlyRead (w.replica r).files s version) :
    History ⟨Function.update w.replica r ((w.replica r).commit t fun _ => [t.id]),
      w.minted ++ [stamp.transactionId]⟩ (ts ++ [t]) := by
  obtain ⟨hid,hrep,_⟩ := prepareAppend_eq_ok hprep
  have hnew : t.header.transactionId ∉ headersOf ts := by
    intro hm
    obtain ⟨u,hu,hut⟩ := (mem_headersOf h.lineage.nodup).mp hm
    have hsame : u.id = stamp.transactionId := hut.trans hid
    exact hfresh (hsame ▸ h.drawn u hu)
  have hlineage := h.lineage.append (h.copies r) hs hprep hnew honce
  have hdrawn : ∀ u ∈ ts ++ [t], u.id ∈ w.minted ++ [stamp.transactionId] := by
    intro u hu
    rcases List.mem_append.mp hu with hu | hu
    · exact List.mem_append_left _ (h.drawn u hu)
    · rw [List.mem_singleton.mp hu,hid]
      exact List.mem_append_right _ (List.mem_singleton_self _)
  refine h.update hlineage hdrawn (commit_replicaId _ _ _) ((h.copies r).append hprep) ?_
  intro r' hr
  refine (h.copies r').other ?_
  rw [hrep]
  exact fun he => hr (h.identities he).symm

theorem reachable_of_reachable (h : Reachable (system Any parse) w) :
    Reachable (FileStore.system Any Unit parse) w := by
  induction h with
  | init h => exact .init h
  | step _ _ hstep ih => exact ih.step trivial hstep

theorem history_step {l : Label ι Any Raw} (hw : Reachable (system Any parse) w)
    (h : History w ts) (hstep : (system Any parse).step w l = some w') :
    (ReadsOnce parse w l → ∃ ts', History w' ts') ∧ (ReportsSound w' ↔ ReadsOnce parse w l) := by
  have hs := World.sound_of_reachable (reachable_of_reachable hw)
  have hs' := World.sound_of_reachable (reachable_of_reachable (hw.step trivial hstep))
  have hkeep : ∀ {ts'}, History w' ts' → ReadsOnce parse w l →
      (ReadsOnce parse w l → ∃ ts', History w' ts') ∧ (ReportsSound w' ↔ ReadsOnce parse w l) :=
    fun h' honce => ⟨fun _ => ⟨_,h'⟩,iff_of_true (h'.reportsSound hs') honce⟩
  have hdrawn : ∀ ids, ∀ t ∈ ts, t.id ∈ w.minted ++ ids :=
    fun ids t ht => List.mem_append_left _ (h.drawn t ht)
  cases l with
  | append r writes stamp =>
    simp only [system,Label.action,World.step] at hstep
    split_ifs at hstep with hfresh
    have hw' := Option.some.inj hstep
    rcases appendEvents_cases parse (w.replica r) stamp writes with
      ⟨hnil,hrun⟩ | ⟨_,e,hprep,hrun⟩ | ⟨hne,t,hprep,hrun⟩
    · rw [hrun] at hw'
      have h' := h.update (r := r) h.lineage (hdrawn [stamp.transactionId]) rfl (h.copies r)
        fun r' _ => h.copies r'
      exact hkeep (hw' ▸ h') (.inl hnil)
    · rw [hrun] at hw'
      have h' := h.update (r := r) h.lineage (hdrawn [stamp.transactionId]) rfl (h.copies r)
        fun r' _ => h.copies r'
      exact hkeep (hw' ▸ h') (.inr (.inl (rejected_of_error hprep)))
    · rw [hrun] at hw'
      by_cases honce : ∀ s version, writes.expectedVersions.get? s = some version →
          ¬ OnlyRead (w.replica r).files s version
      · exact hkeep (hw' ▸ h.append (hs r) hprep hfresh honce) (.inr (.inr honce))
      · have hnot : ¬ ReadsOnce parse w (.append r writes stamp) := by
          rintro (hnil | hrejected | h)
          · exact hne hnil
          · exact not_rejected_of_ok hprep hrejected
          · exact honce h
        refine ⟨fun h => absurd h hnot,iff_of_false (fun hsound => ?_) hnot⟩
        push Not at honce
        obtain ⟨s,version,hexpected,hread⟩ := honce
        obtain ⟨hid,_⟩ := prepareAppend_eq_ok hprep
        obtain ⟨forks,hdetect,f,hf,a,ha,b,hb,hconcurrent⟩ :=
          (h.copies r).reads_twice h.lineage (hs r) hprep (hid ▸ hfresh) hexpected hread
        have hlater : w'.replica r = (w.replica r).commit t fun _ => [t.id] := by
          rw [← hw']
          exact Function.update_self _ _ _
        rw [← hlater] at hdetect hconcurrent
        exact hconcurrent (hsound.concurrent r forks hdetect f hf a ha b hb)
  | reopen r =>
    obtain rfl := Option.some.inj hstep
    refine hkeep (h.update h.lineage h.drawn rfl ((h.copies r).reopen (hs r)) ?_) trivial
    exact fun r' _ => h.copies r'
  | union r source =>
    obtain rfl := Option.some.inj hstep
    refine hkeep (h.update h.lineage h.drawn rfl
      (Copy.union h.lineage (h.copies r) (h.copies source) (hs r) (hs source)) ?_) trivial
    exact fun r' _ => h.copies r'

/-- Along a run, every report is of concurrent transactions and none is of one replica alone,
exactly if no append registers a stream at a version at which it was only read before. -/
theorem fork_reports_sound_iff {labels : List (Label ι Any Raw)}
    (hinit : (system Any parse).init w) (hrun : exec (system Any parse) w labels = some w') :
    Along (system Any parse) ReportsSound w labels ↔
      AllSteps (system Any parse) (ReadsOnce parse) w labels := by
  have hreachable : Reachable (system Any parse) w := .init hinit
  have hhistory := history_init hinit
  have hsound : ReportsSound w :=
    hhistory.reportsSound (World.sound_of_reachable (reachable_of_reachable hreachable))
  refine along_iff_allSteps (I := fun w => Reachable (system Any parse) w ∧ ∃ ts, History w ts)
    ?_ ⟨hreachable,_,hhistory⟩ hsound hrun
  rintro w l w' ⟨hw,ts,h⟩ _ hstep
  obtain ⟨hnext,hiff⟩ := history_step hw h hstep
  exact ⟨fun honce => ⟨hw.step trivial hstep,hnext honce⟩,hiff⟩

end Run

section Scenarios
open TwoCopies

/-- A deposit on the second account by a command that has also read the first one. -/
def readBoth (version : ℕ) : StreamWrites ℕ ℕ :=
  ⟨[⟨account2,5,"Deposited",5⟩],AList.insert account1 0 (AList.insert account2 version ∅),by
    simp only [List.mem_singleton,forall_eq]
    exact (AList.mem_insert _).mpr (.inr ((AList.mem_insert _).mpr (.inl rfl)))⟩

abbrev ledger : System (World Bool ℕ) (Label Bool ℕ ℕ) := system ℕ some

theorem start_init : ledger.init start := ⟨rfl,fun r => if r then 2 else 1,by decide,fun _ => rfl⟩

/-- One writer makes two deposits. Both of them have read the first account, which stays empty, and
are reported as a fork of it. -/
theorem read_twice_forks : (∃ w, exec ledger start
      [.append false (readBoth 0) (stamp 1),.append false (readBoth 1) (stamp 2)] = some w ∧
      (w.replica false).detectForks = .ok [⟨account1,0,[1,2]⟩] ∧
      isAncestor 1 2 (w.replica false).index.headers = true) ∧
    ¬ ∀ w, Reachable ledger w → ReportsSound w := by
  have hrun : (exec ledger start
      [.append false (readBoth 0) (stamp 1),.append false (readBoth 1) (stamp 2)]).map (fun w =>
        ((w.replica false).detectForks,isAncestor 1 2 (w.replica false).index.headers)) =
      some (.ok [⟨account1,0,[1,2]⟩],true) := by decide +kernel
  obtain ⟨w,hw,hreport⟩ := Option.map_eq_some_iff.mp hrun
  obtain ⟨hdetect,hancestor⟩ := Prod.mk.inj hreport
  refine ⟨⟨w,hw,hdetect,hancestor⟩,fun h => ?_⟩
  have hsound := h w (Reachable.exec (.init start_init) hw)
  have hconcurrent := hsound.concurrent false _ hdetect _ (List.mem_singleton_self _) 1 (by simp)
    2 (by simp)
  exact hconcurrent.1 (isAncestor_iff.mp hancestor)

/-- Two copies read both accounts and write to one, and then meet. -/
theorem fork_reports_sound_iff_meet : ∃ w, exec ledger start
      [.append false (readBoth 0) (stamp 1),.append true (readBoth 0) (stamp 2),
        .union true false] = some w ∧
    Along ledger ReportsSound start [.append false (readBoth 0) (stamp 1),
      .append true (readBoth 0) (stamp 2),.union true false] := by
  have hall : AllSteps ledger (ReadsOnce some) start [.append false (readBoth 0) (stamp 1),
      .append true (readBoth 0) (stamp 2),.union true false] := by decide +kernel
  have hrun : (exec ledger start [.append false (readBoth 0) (stamp 1),
      .append true (readBoth 0) (stamp 2),.union true false]).isSome = true := by decide +kernel
  obtain ⟨w,hw⟩ := Option.isSome_iff_exists.mp hrun
  exact ⟨w,hw,(fork_reports_sound_iff start_init hw).mpr hall⟩

end Scenarios

end ForkSoundness
end EventCore
