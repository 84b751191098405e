import EventCore.ForkSoundness
import EventCore.ReconcileForks
import EventCore.SharedHistory

/-! When a divergence of a stream is reported. Detection knows a stream only by the counts that
transactions recorded as its bases, and takes a group of equal counts as closed once something
descends from the group, whatever else was written on top of it. -/
namespace EventCore
namespace LostDivergence
open FileStore ForkSoundness GraphSearch Runs

variable {Any Raw Value E ι : Type}

/-- Neither transaction is an ancestor of the other, and none descends from both. -/
structure Diverged (headers : Headers) (a b : Uuid) : Prop where
  ne : a ≠ b
  concurrent : Concurrent headers a b
  apart : ¬ ∃ c, Ancestor (parentsOf headers) a c ∧ Ancestor (parentsOf headers) b c

def Writer (store : FileEventStore Value) (stream : String) (id : Uuid) : Prop :=
  ∃ t ∈ store.files, t.id = id ∧ ∃ e ∈ t.events, e.streamId = stream

def Reports (store : FileEventStore Value) (stream : String) : Prop :=
  (∃ e, store.detectForks = .error e) ∨
  ∃ forks, store.detectForks = .ok forks ∧ ∃ f ∈ forks, f.streamId.value = stream

def NoneLost (store : FileEventStore Value) : Prop :=
  ∀ stream a b, Writer store stream a → Writer store stream b →
    Diverged store.index.headers a b → Reports store stream

def Joined (headers : Headers) (a b : Uuid) : Prop :=
  ∃ c ∈ headers, AncestorOrSelf (parentsOf headers) a c ∧ AncestorOrSelf (parentsOf headers) b c

section Conditions

/-- After the merge of fork `g` a fork on the stream is left: an older one that is not all below
the merge, or one that the merge itself joins. -/
def ForkLeft (form : ValueForm Value E) (store : FileEventStore Value) (g : Fork) (events : List E)
    (stream : String) : Prop :=
  (∃ base a, Forked store.index.headers stream base ∧
    Extending store.index.headers stream base a ∧ ¬ Below store.index.headers g.transactions a) ∨
  ((∃ event ∈ events, (form.streamId event).value = stream) ∧
    ∃ a, Extending store.index.headers stream (store.index.streamHead stream) a)

/-- The merge of fork `g` joins what diverged on the stream, and all writers of the stream if it
writes to it as well. -/
def JoinsAll (form : ValueForm Value E) (store : FileEventStore Value) (g : Fork) (events : List E)
    (stream : String) : Prop :=
  (∀ a b, Writer store stream a → Writer store stream b → ¬ Joined store.index.headers a b →
    Below store.index.headers g.transactions a ∧ Below store.index.headers g.transactions b) ∧
  ((∃ event ∈ events, (form.streamId event).value = stream) →
    ∀ a, Writer store stream a → Below store.index.headers g.transactions a)

/-- If the pass writes a single merge, above all that its replica wrote, then on every stream a
fork is left or all is joined. -/
def ReconcileJoins (form : ValueForm Value E) (resolver : ForkContext E → ResolutionOutcome E)
    (store : FileEventStore Value) : Prop :=
  ∀ forks g context events, store.detectForks = .ok forks →
    mergedForks form resolver store forks = [g] → buildForkContext form store g = .ok context →
    resolver context = .resolve events →
    (∀ id header, store.index.headers.get? id = some header →
      header.replicaId = store.replicaId → Below store.index.headers g.transactions id) →
    ∀ stream, ForkLeft form store g events stream ∨ JoinsAll form store g events stream

/-- A fork of one side that no transaction of the other side resolves. -/
def OpenIn (mine theirs : Headers) (stream : String) (base : ℕ) : Prop :=
  Forked mine stream base ∧
  ∀ c ∈ theirs, ∃ a, Extending mine stream base a ∧ ¬ Ancestor (parentsOf theirs) a c

/-- Each side has a transaction unknown to the other, and both recorded this base. -/
def SameBase (mine theirs : Headers) (stream : String) (base : ℕ) : Prop :=
  ∃ a b, Extending mine stream base a ∧ a ∉ theirs ∧ Extending theirs stream base b ∧ b ∉ mine

/-- Each side has a writer unknown to the other, or one side has two writers that neither joins. -/
def Split (mine theirs : FileEventStore Value) (stream : String) : Prop :=
  (∃ a b, Writer mine stream a ∧ a ∉ theirs.index.headers ∧
    Writer theirs stream b ∧ b ∉ mine.index.headers) ∨
  ∃ a b, ((Writer mine stream a ∧ Writer mine stream b) ∨
      (Writer theirs stream a ∧ Writer theirs stream b)) ∧
    ¬ Joined mine.index.headers a b ∧ ¬ Joined theirs.index.headers a b

/-- One side is a replica conflict, or each has a transaction of one replica that the other lacks. -/
def Conflict (mine theirs : Headers) : Prop :=
  ¬ ReplicasChained mine ∨ ¬ ReplicasChained theirs ∨
  ∃ a b ha hb, mine.get? a = some ha ∧ a ∉ theirs ∧ theirs.get? b = some hb ∧ b ∉ mine ∧
    ha.replicaId = hb.replicaId

/-- Where two folders are split on a stream, they are a replica conflict, have two unshared
transactions with one base, or one of them has a fork that the other leaves open. -/
def UnionMeets (mine theirs : FileEventStore Value) : Prop :=
  ∀ stream, Split mine theirs stream →
    Conflict mine.index.headers theirs.index.headers ∨ ∃ base,
      SameBase mine.index.headers theirs.index.headers stream base ∨
      OpenIn mine.index.headers theirs.index.headers stream base ∨
      OpenIn theirs.index.headers mine.index.headers stream base

/-- The condition on one step under which no divergence gets lost. -/
def Keeps (w : World ι Value) : Action ι Any Raw Value E → Prop
  | .append _ _ _ => True
  | .reopen _ => True
  | .reconcile r form resolver _ => ReconcileJoins form resolver (w.replica r)
  | .merge r source => UnionMeets (w.replica r) (w.replica source)

end Conditions

section Store

variable {minted : List Uuid} {store : FileEventStore Value}

theorem Writer.mem {stream : String} {a : Uuid} (h : Writer store stream a)
    (hs : Sound minted store) : a ∈ store.index.headers := by
  obtain ⟨t,ht,rfl,_⟩ := h
  exact hs.mem_headers ht

theorem joined_self {headers : Headers} {a : Uuid} (ha : a ∈ headers) : Joined headers a a :=
  ⟨a,ha,.inl rfl,.inl rfl⟩

theorem diverged_iff {headers : Headers} {a b : Uuid} (ha : a ∈ headers) (hb : b ∈ headers) :
    Diverged headers a b ↔ ¬ Joined headers a b := by
  constructor
  · rintro ⟨hne,⟨hab,hba⟩,hapart⟩ ⟨c,_,hac,hbc⟩
    rcases hac with rfl | hac
    · rcases hbc with rfl | hbc
      · exact hne rfl
      · exact hba hbc
    · rcases hbc with rfl | hbc
      · exact hab hac
      · exact hapart ⟨c,hac,hbc⟩
  · intro hnot
    refine ⟨?_,⟨?_,?_⟩,?_⟩
    · rintro rfl
      exact hnot (joined_self ha)
    · exact fun hab => hnot ⟨b,hb,.inr hab,.inl rfl⟩
    · exact fun hba => hnot ⟨a,ha,.inl rfl,.inr hba⟩
    · rintro ⟨c,hac,hbc⟩
      obtain ⟨p,hp,_⟩ := ancestor_iff_link.mp hac
      exact hnot ⟨c,mem_of_parentsOf hp,.inr hac,.inr hbc⟩

theorem reports_iff (hwf : WellFormed store.index.headers) {stream : String} :
    Reports store stream ↔ ¬ ReplicasChained store.index.headers ∨
      ∃ base, Forked store.index.headers stream base := by
  unfold Reports FileEventStore.detectForks
  rcases detectForksIn_spec hwf with ⟨hnot,_,_,_,herr⟩ | ⟨hchain,forks,hrun,_,hmem⟩
  · exact iff_of_true (.inl ⟨_,herr⟩) (.inl hnot)
  · rw [hrun]
    simp only [hchain,not_true_eq_false,false_or,reduceCtorEq,exists_false,Except.ok.injEq,
      exists_eq_left']
    constructor
    · rintro ⟨f,hf,rfl⟩
      exact ⟨f.baseVersion,((hmem f).mp hf).1⟩
    · rintro ⟨base,hforked⟩
      obtain ⟨⟨a,_,_,⟨header,hget,hbase⟩,_⟩,_⟩ := id hforked
      obtain ⟨streamId,rfl⟩ := hwf.valid hget hbase
      let f : Fork := ⟨streamId,base,
        (candidatesOf store.index.headers streamId.value base).insertionSort (· ≤ ·)⟩
      exact ⟨f,(hmem f).mpr ⟨hforked,rfl⟩,rfl⟩

/-- No divergence is lost exactly if a stream with writers that nothing joins has a fork, or there
is a replica conflict. -/
theorem noneLost_iff (hs : Sound minted store) :
    NoneLost store ↔ ¬ ReplicasChained store.index.headers ∨ ∀ stream,
      (∃ base, Forked store.index.headers stream base) ∨
      ∀ a b, Writer store stream a → Writer store stream b → Joined store.index.headers a b := by
  unfold NoneLost
  simp only [reports_iff hs.wellFormed]
  constructor
  · intro h
    by_cases hchain : ReplicasChained store.index.headers
    · refine .inr fun stream => or_iff_not_imp_left.mpr fun hnone a b ha hb => ?_
      by_contra hnot
      have hdiverged := (diverged_iff (ha.mem hs) (hb.mem hs)).mpr hnot
      rcases h stream a b ha hb hdiverged with hbad | hforked
      · exact hbad hchain
      · exact hnone hforked
    · exact .inl hchain
  · rintro (hbad | h) stream a b ha hb hdiverged
    · exact .inl hbad
    · refine .inr ((h stream).resolve_right fun hjoined => ?_)
      exact (diverged_iff (ha.mem hs) (hb.mem hs)).mp hdiverged
        (hjoined a b ha hb)

end Store

section Extend

variable {headers : Headers} {header : TransactionHeader} (hwf : WellFormed headers)
  (hnew : header.transactionId ∉ headers)
  (hparents : ∀ p ∈ header.parentTransactionIds, p ∈ headers)
include hwf hnew hparents

theorem joined_extend_iff {a b : Uuid} (ha : a ∈ headers) (hb : b ∈ headers) :
    Joined (extend headers header) a b ↔ Joined headers a b ∨
      (Below headers header.parentTransactionIds a ∧ Below headers header.parentTransactionIds b) := by
  have hold : ∀ {x c : Uuid}, c ∈ headers →
      (AncestorOrSelf (parentsOf (extend headers header)) x c ↔
        AncestorOrSelf (parentsOf headers) x c) := by
    intro x c hc
    unfold AncestorOrSelf
    rw [ancestor_extend_ne hwf hnew fun he => hnew (he ▸ hc)]
  have hself : ∀ {x : Uuid}, x ∈ headers →
      (AncestorOrSelf (parentsOf (extend headers header)) x header.transactionId ↔
        Below headers header.parentTransactionIds x) := by
    intro x hx
    unfold AncestorOrSelf
    rw [ancestor_extend_self hwf hnew hparents]
    exact or_iff_right fun he => hnew (he ▸ hx)
  constructor
  · rintro ⟨c,hc,hac,hbc⟩
    rcases mem_extend.mp hc with rfl | hc
    · exact .inr ⟨(hself ha).mp hac,(hself hb).mp hbc⟩
    · exact .inl ⟨c,hc,(hold hc).mp hac,(hold hc).mp hbc⟩
  · rintro (⟨c,hc,hac,hbc⟩ | ⟨hac,hbc⟩)
    · exact ⟨c,mem_extend.mpr (.inr hc),(hold hc).mpr hac,(hold hc).mpr hbc⟩
    · exact ⟨_,mem_extend.mpr (.inl rfl),(hself ha).mpr hac,(hself hb).mpr hbc⟩

theorem joined_extend_self_iff {a : Uuid} (ha : a ∈ headers) :
    Joined (extend headers header) a header.transactionId ↔
      Below headers header.parentTransactionIds a := by
  constructor
  · rintro ⟨c,_,hac,hself | hanc⟩
    · rw [← hself] at hac
      rcases hac with rfl | hac
      · exact absurd ha hnew
      · exact (ancestor_extend_self hwf hnew hparents).mp hac
    · exact absurd hanc (fresh_not_ancestor hwf hnew hparents c)
  · intro hbelow
    exact ⟨_,mem_extend.mpr (.inl rfl),.inr ((ancestor_extend_self hwf hnew hparents).mpr hbelow),
      .inl rfl⟩

end Extend

theorem Joined.symm {headers : Headers} {a b : Uuid} (h : Joined headers a b) :
    Joined headers b a := by
  obtain ⟨c,hc,hac,hbc⟩ := h
  exact ⟨c,hc,hbc,hac⟩

theorem writer_commit_iff {store : FileEventStore Value} {t : Transaction Value}
    {tips : Headers → List Uuid} {stream : String} {a : Uuid} :
    Writer (store.commit t tips) stream a ↔
      Writer store stream a ∨ (t.id = a ∧ ∃ e ∈ t.events, e.streamId = stream) := by
  unfold Writer
  simp only [commit_files,List.mem_append,List.mem_singleton]
  constructor
  · rintro ⟨u,hu | rfl,hid,he⟩
    · exact .inl ⟨u,hu,hid,he⟩
    · exact .inr ⟨hid,he⟩
  · rintro (⟨u,hu,hid,he⟩ | ⟨hid,he⟩)
    · exact ⟨u,.inl hu,hid,he⟩
    · exact ⟨t,.inr rfl,hid,he⟩

section Steps

variable {minted : List Uuid} {store : FileEventStore Value}

theorem NoneLost.appendEvents (h : NoneLost store) (hs : Sound minted store)
    {parse : Raw → Option Value} {stamp : Stamp} {writes : StreamWrites Any Raw}
    (hfresh : stamp.transactionId ∉ minted) : NoneLost (appendEvents parse store stamp writes).2 := by
  have hs' := hs.appendEvents parse writes hfresh
  rcases appendEvents_store parse store stamp writes with hrun | ⟨t,hprep,hrun⟩
  · rwa [hrun]
  · obtain ⟨hid,_,hparents,_⟩ := prepareAppend_eq_ok hprep
    have hnew : t.header.transactionId ∉ store.index.headers :=
      fun hm => hfresh (hid ▸ hs.drawn hm)
    have hmem : ∀ p ∈ t.header.parentTransactionIds, p ∈ store.index.headers :=
      fun p hp => hs.tips (hparents ▸ hp)
    have hbelow : ∀ {a}, a ∈ store.index.headers →
        Below store.index.headers t.header.parentTransactionIds a :=
      fun ha => hparents ▸ hs.below_tips ha
    rw [hrun] at hs' ⊢
    refine (noneLost_iff hs').mpr (.inr fun stream => .inr fun a b ha hb => ?_)
    have ha' := ha.mem hs'
    have hb' := hb.mem hs'
    rw [commit_headers] at ha' hb' ⊢
    rcases mem_extend.mp ha' with rfl | ha'
    · rcases mem_extend.mp hb' with rfl | hb'
      · exact joined_self ha'
      · exact ((joined_extend_self_iff hs.wellFormed hnew hmem hb').mpr (hbelow hb')).symm
    · rcases mem_extend.mp hb' with rfl | hb'
      · exact (joined_extend_self_iff hs.wellFormed hnew hmem ha').mpr (hbelow ha')
      · exact (joined_extend_iff hs.wellFormed hnew hmem ha' hb').mpr (.inr ⟨hbelow ha',hbelow hb'⟩)

theorem mergeTransaction_streams {form : ValueForm Value E} {events : List E}
    {items : List (String × String × Value)} (hitems : mergeItems form events = .ok items)
    (stamp : Stamp) (fork : Fork) {stream : String} :
    (∃ e ∈ (mergeTransaction store stamp fork items).events, e.streamId = stream) ↔
      ∃ event ∈ events, (form.streamId event).value = stream := by
  have hstreams := congrArg (List.map Prod.fst) (buildEnvelopes_items store.index stamp.eventId items)
  rw [List.map_map,mergeItems_streams hitems] at hstreams
  have hmem : stream ∈ (mergeTransaction store stamp fork items).events.map EventEnvelope.streamId ↔
      stream ∈ events.map fun event => (form.streamId event).value := by
    rw [← hstreams]
    rfl
  simpa only [List.mem_map] using hmem

theorem noneLost_writeMerge_iff (hs : Sound minted store) {form : ValueForm Value E} {stamp : Stamp}
    {fork : Fork} {events : List E} {store' : FileEventStore Value}
    (hfresh : stamp.transactionId ∉ minted)
    (hheads : ∀ p ∈ fork.transactions, p ∈ store.index.headers)
    (hrun : writeMergeTransaction form store stamp fork events = .ok store')
    (hchain : ReplicasChained store.index.headers) :
    NoneLost store' ↔ ((∀ id header, store.index.headers.get? id = some header →
      header.replicaId = store.replicaId → Below store.index.headers fork.transactions id) →
        ∀ stream, ForkLeft form store fork events stream ∨ JoinsAll form store fork events stream) := by
  have hs' := hs.writeMerge hfresh hheads hrun
  have hleft : ∀ stream, (∃ base, Forked store'.index.headers stream base) ↔
      ForkLeft form store fork events stream := by
    intro stream
    simp only [writeMerge_forked hs hfresh hheads hrun]
    constructor
    · rintro ⟨base,⟨hwrites,rfl,hjoin⟩ | ⟨_,hforked,a,ha,hnot⟩⟩
      · exact .inr ⟨hwrites,hjoin⟩
      · exact .inl ⟨base,a,hforked,ha,hnot⟩
    · rintro (⟨base,a,hforked,ha,hnot⟩ | ⟨hwrites,hjoin⟩)
      · refine ⟨base,?_⟩
        by_cases hbase : (∃ event ∈ events, (form.streamId event).value = stream) ∧
            base = store.index.streamHead stream
        · exact .inl ⟨hbase.1,hbase.2,a,ha⟩
        · exact .inr ⟨hbase,hforked,a,ha,hnot⟩
      · exact ⟨_,.inl ⟨hwrites,rfl,hjoin⟩⟩
  rw [noneLost_iff hs',writeMerge_replicasChained hs hfresh hheads hrun]
  simp only [hchain,true_and,hleft]
  refine Iff.trans (or_congr_right ?_) imp_iff_not_or.symm
  refine forall_congr' fun stream => or_congr_right ?_
  obtain ⟨items,hitems,rfl⟩ := writeMerge_eq_ok hrun
  have hnew : (mergeTransaction store stamp fork items).header.transactionId ∉ store.index.headers :=
    fun hm => hfresh (hs.drawn hm)
  have hself := fun {a : Uuid} (ha : a ∈ store.index.headers) =>
    joined_extend_self_iff hs.wellFormed hnew hheads ha
  have hold := fun {a b : Uuid} (ha : a ∈ store.index.headers) (hb : b ∈ store.index.headers) =>
    joined_extend_iff hs.wellFormed hnew hheads ha hb
  rw [commit_headers]
  simp only [writer_commit_iff,mergeTransaction_streams hitems]
  constructor
  · intro h
    refine ⟨fun a b ha hb hnot => ?_,fun hwrites a ha => ?_⟩
    · exact ((hold (ha.mem hs) (hb.mem hs)).mp (h a b (.inl ha) (.inl hb))).resolve_left hnot
    · exact (hself (ha.mem hs)).mp (h a _ (.inl ha) (.inr ⟨rfl,hwrites⟩))
  · rintro ⟨hpairs,hall⟩ a b (ha | ⟨rfl,hwrites⟩) (hb | ⟨rfl,hwrites'⟩)
    · refine (hold (ha.mem hs) (hb.mem hs)).mpr (or_iff_not_imp_left.mpr ?_)
      exact hpairs a b ha hb
    · exact (hself (ha.mem hs)).mpr (hall hwrites' a ha)
    · exact ((hself (hb.mem hs)).mpr (hall hwrites b hb)).symm
    · exact joined_self (mem_extend.mpr (.inl rfl))

theorem noneLost_reconcile_iff (h : NoneLost store) (hs : Sound minted store)
    (form : ValueForm Value E) (resolver : ForkContext E → ResolutionOutcome E) {stamp : ℕ → Stamp}
    (hids : (drawnIds stamp 0 (forkCount store)).Nodup)
    (hfresh : ∀ id ∈ drawnIds stamp 0 (forkCount store), id ∉ minted) :
    NoneLost (reconcile form resolver stamp store).2 ↔ ReconcileJoins form resolver store := by
  have hs' := hs.reconcile form resolver hids hfresh
  unfold ReconcileJoins
  cases hdetect : store.detectForks with
  | error e =>
    rw [reconcile,hdetect]
    exact iff_of_true h fun _ _ _ _ hok => nomatch hok
  | ok forks =>
    have hchain : ReplicasChained store.index.headers :=
      (detectForksIn_eq_ok hs.wellFormed hdetect).1
    have hheads := hs.fork_heads hdetect
    have hrun : reconcile form resolver stamp store =
        reconcileForks form resolver stamp forks store ⟨0,[]⟩ := by rw [reconcile,hdetect]
    rw [show forkCount store = forks.length by rw [forkCount,hdetect]] at hids hfresh
    obtain ⟨_,hspec⟩ := reconcileForks_spec form resolver ⟨0,[]⟩ hs hheads hids hfresh
    rw [← hrun] at hspec
    cases hmerged : mergedForks form resolver store forks with
    | nil =>
      simp only [hmerged] at hspec
      rw [hspec]
      refine iff_of_true h fun forks' g context events hok hsingle => ?_
      rw [← Except.ok.inj hok,hmerged] at hsingle
      cases hsingle
    | cons g gs =>
      cases gs with
      | cons g₂ gs =>
        simp only [hmerged] at hspec
        obtain ⟨_,_,_,_,_,_,hconflict⟩ := hspec
        refine iff_of_true ((noneLost_iff hs').mpr (.inl hconflict))
          fun forks' g context events hok hsingle => ?_
        rw [← Except.ok.inj hok,hmerged] at hsingle
        simp at hsingle
      | nil =>
        simp only [hmerged] at hspec
        obtain ⟨context,events,hctx,hres,hwrite⟩ := hspec
        have hg : g ∈ forks := mem_of_mergedForks form resolver (hmerged ▸ List.mem_cons_self)
        have hnew := hfresh _ (stamp_mem_drawnIds stamp 0 hg)
        rw [noneLost_writeMerge_iff hs hnew (hheads g hg) hwrite hchain]
        constructor
        · intro hjoins forks' g' context' events' hok hsingle hctx' hres' hown
          rw [← Except.ok.inj hok,hmerged] at hsingle
          obtain rfl := List.head_eq_of_cons_eq hsingle
          obtain rfl := Except.ok.inj (hctx.symm.trans hctx')
          obtain rfl := ResolutionOutcome.resolve.inj (hres.symm.trans hres')
          exact hjoins hown
        · intro hjoins hown
          exact hjoins forks g context events rfl hmerged hctx hres hown

end Steps

section Union

variable {mine theirs whole : Headers} (hu : UnionOf mine theirs whole)
include hu

theorem joined_union_iff {a b : Uuid} : Joined whole a b ↔ Joined mine a b ∨ Joined theirs a b := by
  constructor
  · rintro ⟨c,hc,hac,hbc⟩
    rcases hu.mem hc with hc | hc
    · exact .inl ⟨c,hc,(hu.left.ancestorOrSelf_iff hc).mp hac,(hu.left.ancestorOrSelf_iff hc).mp hbc⟩
    · refine .inr ⟨c,hc,?_,?_⟩
      · exact (hu.right.ancestorOrSelf_iff hc).mp hac
      · exact (hu.right.ancestorOrSelf_iff hc).mp hbc
  · rintro (⟨c,hc,hac,hbc⟩ | ⟨c,hc,hac,hbc⟩)
    · refine ⟨c,hu.left.mem hc,?_,?_⟩
      · exact (hu.left.ancestorOrSelf_iff hc).mpr hac
      · exact (hu.left.ancestorOrSelf_iff hc).mpr hbc
    · refine ⟨c,hu.right.mem hc,?_,?_⟩
      · exact (hu.right.ancestorOrSelf_iff hc).mpr hac
      · exact (hu.right.ancestorOrSelf_iff hc).mpr hbc

theorem replicasChained_union_iff : ReplicasChained whole ↔ ¬ Conflict mine theirs := by
  constructor
  · rintro hchain (hbad | hbad | ⟨a,b,ha,hb,hga,hnota,hgb,hnotb,hrep⟩)
    · exact hbad (hu.left.replicasChained hchain)
    · exact hbad (hu.right.replicasChained hchain)
    · have hne : a ≠ b := fun he => hnota (he ▸ HashMap.mem_of_get? hgb)
      rcases hchain a b ha hb (hu.left.get? hga) (hu.right.get? hgb) hrep hne with hanc | hanc
      · exact hnota (hu.right.ancestor_mem (HashMap.mem_of_get? hgb) hanc)
      · exact hnotb (hu.left.ancestor_mem (HashMap.mem_of_get? hga) hanc)
  · intro hnone a b ha hb hga hgb hrep hab
    simp only [Conflict,not_or,not_not,not_exists,not_and] at hnone
    obtain ⟨hmine,htheirs,hcross⟩ := hnone
    have hboth : ∀ {part}, PartOf part whole → ReplicasChained part → a ∈ part → b ∈ part →
        Ancestor (parentsOf whole) a b ∨ Ancestor (parentsOf whole) b a := by
      intro part hp hchain hma hmb
      rw [hp.ancestor_iff hmb,hp.ancestor_iff hma]
      exact hchain a b ha hb ((hp.get?_eq hma).symm.trans hga) ((hp.get?_eq hmb).symm.trans hgb)
        hrep hab
    rcases hu.mem (HashMap.mem_of_get? hga) with hma | hma
    · by_cases hmb : b ∈ mine
      · exact hboth hu.left hmine hma hmb
      · have hmb' := (hu.mem (HashMap.mem_of_get? hgb)).resolve_left hmb
        by_cases hma' : a ∈ theirs
        · exact hboth hu.right htheirs hma' hmb'
        · exact absurd hrep (hcross a b ha hb ((hu.left.get?_eq hma).symm.trans hga) hma'
            ((hu.right.get?_eq hmb').symm.trans hgb) hmb)
    · by_cases hmb : b ∈ theirs
      · exact hboth hu.right htheirs hma hmb
      · have hmb' := (hu.mem (HashMap.mem_of_get? hgb)).resolve_right hmb
        by_cases hma' : a ∈ mine
        · exact hboth hu.left hmine hma' hmb'
        · exact absurd hrep.symm (hcross b a hb ha ((hu.left.get?_eq hmb').symm.trans hgb) hmb
            ((hu.right.get?_eq hma).symm.trans hga) hma')

/-- A fork of one side stays one unless the other side resolves it. -/
theorem forked_of_openIn {stream : String} {base : ℕ} (hopen : OpenIn mine theirs stream base) :
    Forked whole stream base := by
  obtain ⟨⟨⟨a,b,hab,ha,hb⟩,hmine⟩,htheirs⟩ := hopen
  have hext : ∀ {id}, Extending mine stream base id → Extending whole stream base id :=
    fun hid => hu.extending_iff.mpr (.inl hid)
  refine ⟨⟨a,b,hab,hext ha,hext hb⟩,fun c hc => ?_⟩
  rcases hu.mem hc with hc | hc
  · obtain ⟨x,hx,hnot⟩ := hmine c hc
    exact ⟨x,hext hx,fun hanc => hnot ((hu.left.ancestor_iff hc).mp hanc)⟩
  · obtain ⟨x,hx,hnot⟩ := htheirs c hc
    exact ⟨x,hext hx,fun hanc => hnot ((hu.right.ancestor_iff hc).mp hanc)⟩

theorem openIn_of_forked {stream : String} {base : ℕ} (hforked : Forked whole stream base)
    (hall : ∀ id, Extending whole stream base id → id ∈ mine) : OpenIn mine theirs stream base := by
  obtain ⟨⟨a,b,hab,ha,hb⟩,hopen⟩ := hforked
  have hext : ∀ {id}, Extending whole stream base id → Extending mine stream base id :=
    fun hid => (hu.left.extending_iff (hall _ hid)).mp hid
  refine ⟨⟨⟨a,b,hab,hext ha,hext hb⟩,fun c hc => ?_⟩,fun c hc => ?_⟩
  · obtain ⟨x,hx,hnot⟩ := hopen c (hu.left.mem hc)
    exact ⟨x,hext hx,fun hanc => hnot ((hu.left.ancestor_iff hc).mpr hanc)⟩
  · obtain ⟨x,hx,hnot⟩ := hopen c (hu.right.mem hc)
    exact ⟨x,hext hx,fun hanc => hnot ((hu.right.ancestor_iff hc).mpr hanc)⟩

theorem forked_of_sameBase {stream : String} {base : ℕ} (h : SameBase mine theirs stream base) :
    Forked whole stream base := by
  obtain ⟨a,b,ha,hnota,hb,hnotb⟩ := h
  have hne : a ≠ b := fun he => hnota (he ▸ extending_mem hb)
  have ha' := hu.extending_iff.mpr (.inl ha)
  have hb' := hu.extending_iff.mpr (.inr hb)
  refine ⟨⟨a,b,hne,ha',hb'⟩,fun c hc => ?_⟩
  by_contra hall
  push Not at hall
  exact hu.no_descendant hnota hnotb hc (.inr (hall a ha')) (.inr (hall b hb'))

theorem forked_union_iff {stream : String} {base : ℕ} : Forked whole stream base ↔
    SameBase mine theirs stream base ∨ OpenIn mine theirs stream base ∨
      OpenIn theirs mine stream base := by
  constructor
  · intro hforked
    by_cases hmine : ∀ id, Extending whole stream base id → id ∈ mine
    · exact .inr (.inl (openIn_of_forked hu hforked hmine))
    · by_cases htheirs : ∀ id, Extending whole stream base id → id ∈ theirs
      · exact .inr (.inr (openIn_of_forked hu.symm hforked htheirs))
      · push Not at hmine htheirs
        obtain ⟨b,hb,hnotb⟩ := hmine
        obtain ⟨a,ha,hnota⟩ := htheirs
        refine .inl ⟨a,b,?_,hnota,?_,hnotb⟩
        · exact (hu.extending_iff.mp ha).resolve_right fun h => hnota (extending_mem h)
        · exact (hu.extending_iff.mp hb).resolve_left fun h => hnotb (extending_mem h)
  · rintro (h | h | h)
    · exact forked_of_sameBase hu h
    · exact forked_of_openIn hu h
    · exact forked_of_openIn hu.symm h

end Union

section Merge

variable {minted : List Uuid} {mine theirs : FileEventStore Value}

theorem Writer.shared {stream : String} {a : Uuid} (h : Writer theirs stream a)
    (hs : Sound minted mine) (hagree : ∀ t ∈ mine.files, ∀ u ∈ theirs.files, t.id = u.id → t = u)
    (ha : a ∈ mine.index.headers) : Writer mine stream a := by
  obtain ⟨t,ht,rfl,he⟩ := h
  obtain ⟨header,hget⟩ := HashMap.exists_of_mem ha
  obtain ⟨u,hu,hid,_⟩ := hs.exists_file hget
  obtain rfl := hagree u hu t ht hid
  exact ⟨u,hu,rfl,he⟩

variable (hs : Sound minted mine)
  (hagree : ∀ t ∈ mine.files, ∀ u ∈ theirs.files, t.id = u.id → t = u)
include hs hagree

theorem writer_union_iff {stream : String} {a : Uuid} :
    Writer ({ mine with files := unionFiles mine.files theirs.files } :
        FileEventStore Value).reopen stream a ↔ Writer mine stream a ∨ Writer theirs stream a := by
  constructor
  · rintro ⟨t,ht,hid,he⟩
    rcases List.mem_append.mp ht with ht | ht
    · exact .inl ⟨t,ht,hid,he⟩
    · exact .inr ⟨t,(List.mem_filter.mp ht).1,hid,he⟩
  · rintro (⟨t,ht,hid,he⟩ | h)
    · exact ⟨t,List.mem_append_left _ ht,hid,he⟩
    · by_cases hmine : a ∈ mine.index.headers
      · obtain ⟨t,ht,hid,he⟩ := h.shared hs hagree hmine
        exact ⟨t,List.mem_append_left _ ht,hid,he⟩
      · obtain ⟨t,ht,rfl,he⟩ := h
        refine ⟨t,List.mem_append_right _ (List.mem_filter.mpr ⟨ht,decide_eq_true fun hm => ?_⟩),
          rfl,he⟩
        obtain ⟨u,hu,hut⟩ := List.mem_map.mp hm
        exact hmine (hut ▸ hs.mem_headers hu)

variable (hst : Sound minted theirs)
include hst

theorem split_iff {stream : String} : Split mine theirs stream ↔
    ∃ a b, (Writer mine stream a ∨ Writer theirs stream a) ∧
      (Writer mine stream b ∨ Writer theirs stream b) ∧
      ¬ Joined mine.index.headers a b ∧ ¬ Joined theirs.index.headers a b := by
  have hmem : ∀ {headers : Headers} {x y : Uuid}, WellFormed headers → Joined headers x y →
      x ∈ headers ∧ y ∈ headers := by
    rintro headers x y hwf ⟨c,hc,hxc,hyc⟩
    have hup : ∀ {z}, AncestorOrSelf (parentsOf headers) z c → z ∈ headers := by
      rintro z (rfl | hanc)
      · exact hc
      · exact FileStore.ancestor_mem hwf hanc
    exact ⟨hup hxc,hup hyc⟩
  constructor
  · rintro (⟨a,b,ha,hnota,hb,hnotb⟩ | ⟨a,b,⟨ha,hb⟩ | ⟨ha,hb⟩,hnot⟩)
    · refine ⟨a,b,.inl ha,.inr hb,fun h => ?_,fun h => ?_⟩
      · exact hnotb (hmem hs.wellFormed h).2
      · exact hnota (hmem hst.wellFormed h).1
    · exact ⟨a,b,.inl ha,.inl hb,hnot⟩
    · exact ⟨a,b,.inr ha,.inr hb,hnot⟩
  · rintro ⟨a,b,ha,hb,hnot⟩
    have hagree' : ∀ t ∈ theirs.files, ∀ u ∈ mine.files, t.id = u.id → t = u :=
      fun t ht u hu hid => (hagree u hu t ht hid.symm).symm
    have hcross : ∀ {x y}, Writer mine stream x → Writer theirs stream y →
        (Writer mine stream x ∧ Writer mine stream y) ∨
        (Writer theirs stream x ∧ Writer theirs stream y) ∨
        (x ∉ theirs.index.headers ∧ y ∉ mine.index.headers) := by
      intro x y hx hy
      by_cases hym : y ∈ mine.index.headers
      · exact .inl ⟨hx,hy.shared hs hagree hym⟩
      · by_cases hxt : x ∈ theirs.index.headers
        · exact .inr (.inl ⟨hx.shared hst hagree' hxt,hy⟩)
        · exact .inr (.inr ⟨hxt,hym⟩)
    rcases ha with ha | ha
    · rcases hb with hb | hb
      · exact .inr ⟨a,b,.inl ⟨ha,hb⟩,hnot⟩
      · rcases hcross ha hb with h | h | h
        · exact .inr ⟨a,b,.inl h,hnot⟩
        · exact .inr ⟨a,b,.inr h,hnot⟩
        · exact .inl ⟨a,b,ha,h.1,hb,h.2⟩
    · rcases hb with hb | hb
      · rcases hcross hb ha with h | h | h
        · exact .inr ⟨a,b,.inl h.symm,hnot⟩
        · exact .inr ⟨a,b,.inr h.symm,hnot⟩
        · exact .inl ⟨b,a,hb,h.1,ha,h.2⟩
      · exact .inr ⟨a,b,.inr ⟨ha,hb⟩,hnot⟩

theorem noneLost_union_iff :
    NoneLost ({ mine with files := unionFiles mine.files theirs.files } :
      FileEventStore Value).reopen ↔ UnionMeets mine theirs := by
  have hu := unionOf_merge hs hst hagree
  have hunion := hs.union hst
  rw [noneLost_iff hunion,replicasChained_union_iff hu,not_not]
  simp only [forked_union_iff hu,joined_union_iff hu,writer_union_iff hs hagree]
  rw [← forall_or_left]
  refine forall_congr' fun stream => ?_
  have hsplit := @split_iff _ _ _ _ hs hagree hst stream
  by_cases h : Split mine theirs stream
  · obtain ⟨a,b,ha,hb,hm,ht⟩ := hsplit.mp h
    simp only [h,forall_true_left]
    refine or_congr_right (or_iff_left fun hall => ?_)
    exact (hall a b ha hb).elim hm ht
  · refine iff_of_true (.inr (.inr fun a b ha hb => ?_)) fun h' => absurd h' h
    by_contra hnot
    rw [not_or] at hnot
    exact h (hsplit.mpr ⟨a,b,ha,hb,hnot⟩)

end Merge

section Run

variable [DecidableEq ι] {parse : Raw → Option Value} {w w' : World ι Value}

theorem noneLost_step_iff {l : Action ι Any Raw Value E}
    (hw : Reachable (FileStore.system Any E parse) w) (h : ∀ r, NoneLost (w.replica r))
    (hstep : (FileStore.system Any E parse).step w l = some w') :
    (∀ r, NoneLost (w'.replica r)) ↔ Keeps w l := by
  have hs := World.sound_of_reachable hw
  obtain ⟨r,store,ids,heffect,rfl⟩ := World.step_cases hstep
  have hone : (∀ r', NoneLost (Function.update w.replica r store r')) ↔ NoneLost store := by
    constructor
    · intro hall
      simpa only [Function.update_self] using hall r
    · intro hstore r'
      by_cases hr : r' = r
      · subst hr
        simpa only [Function.update_self] using hstore
      · simpa only [Function.update_of_ne hr] using h r'
  rw [hone]
  cases heffect with
  | append hfresh => exact iff_of_true ((h r).appendEvents (hs r) hfresh) trivial
  | reopen =>
    have hsame : SameHeaders (w.replica r).index.headers (w.replica r).reopen.index.headers :=
      (hs r).headers
    refine iff_of_true ?_ trivial
    rw [noneLost_iff (hs r).reopen]
    have hold := (noneLost_iff (hs r)).mp (h r)
    unfold Joined at hold ⊢
    simp only [← hsame.forked_iff,← hsame.parentsOf,← hsame.mem_iff]
    refine hold.imp (fun hbad hchain => hbad (hsame.symm.replicasChained hchain)) id
  | reconcile hids hfresh => exact noneLost_reconcile_iff (h r) (hs r) _ _ hids hfresh
  | @merge _ source =>
    refine noneLost_union_iff (hs r) (fun t ht u hu hid => ?_) (hs source)
    exact World.agree_of_reachable hw r source t ht u hu hid

/-- Transactions that recorded one base of the stream have diverged only under a report. -/
def SameBaseReported (store : FileEventStore Value) : Prop :=
  ∀ stream base a b, Extending store.index.headers stream base a →
    Extending store.index.headers stream base b → Diverged store.index.headers a b →
      Reports store stream

theorem sameBaseReported {minted : List Uuid} {store : FileEventStore Value}
    (hs : Sound minted store) : SameBaseReported store := by
  intro stream base a b ha hb hdiverged
  refine (reports_iff hs.wellFormed).mpr (.inr ⟨base,⟨a,b,hdiverged.ne,ha,hb⟩,fun c _ => ?_⟩)
  by_contra hall
  push Not at hall
  exact hdiverged.apart ⟨c,hall a ha,hall b hb⟩

/-- Along a run, divergences of transactions with one base are always reported. No divergence of a
stream at all gets lost, exactly if every union of folders that are split on it finds two of their
transactions with one base, and every single merge that a reconciliation writes joins what
diverged, or a fork is left. -/
theorem none_lost_iff {labels : List (Action ι Any Raw Value E)}
    (hinit : (FileStore.system Any E parse).init w)
    (hrun : exec (FileStore.system Any E parse) w labels = some w') :
    Along (FileStore.system Any E parse) (fun w => ∀ r, SameBaseReported (w.replica r)) w labels ∧
    (Along (FileStore.system Any E parse) (fun w => ∀ r, NoneLost (w.replica r)) w labels ↔
      AllSteps (FileStore.system Any E parse) Keeps w labels) := by
  have hreachable : Reachable (FileStore.system Any E parse) w := .init hinit
  have hsame : ∀ {w : World ι Value}, Reachable (FileStore.system Any E parse) w →
      ∀ r, SameBaseReported (w.replica r) :=
    fun hw r => sameBaseReported (World.sound_of_reachable hw r)
  have hnone : ∀ r, NoneLost (w.replica r) := by
    obtain ⟨_,replicaId,_,hcreate⟩ := hinit
    rintro r stream a b ⟨t,ht,_⟩
    rw [hcreate] at ht
    cases ht
  refine ⟨Reachable.along (fun w hw => hsame hw) hreachable labels,?_⟩
  refine along_iff_allSteps (I := Reachable (FileStore.system Any E parse)) ?_ hreachable hnone
    hrun
  exact fun w l w' hw h hstep => ⟨fun _ => hw.step trivial hstep,noneLost_step_iff hw h hstep⟩

end Run

section Scenarios
open TwoCopies

def depositAt (version : ℕ) : StreamWrites ℕ ℕ :=
  ⟨[⟨account1,5,"Deposited",5⟩],AList.insert account1 version ∅,mem_insert_of_mem_singleton⟩

/-- After a first deposit that both copies have, each makes one on its own; the second takes in
the files of the first and merges the two. The first, which has not seen the merge, makes another
deposit, and the folders are united. -/
def depositBesideMerge : List (Action Bool ℕ ℕ ℕ ℕ) :=
  [.append false (depositAt 0) (stamp 1),.merge true false,
    .append false (depositAt 1) (stamp 2),.append true (depositAt 1) (stamp 3),.merge true false,
    .reconcile true deposits (fun _ => .resolve [5]) fun n => stamp (4+n),
    .append false (depositAt 2) (stamp 5),.merge true false]

theorem diverged_of_isAncestor {headers : Headers} {a b : Uuid} (hne : a ≠ b)
    (hab : isAncestor a b headers = false) (hba : isAncestor b a headers = false)
    (happart : headers.keys.all (fun c => !(isAncestor a c headers && isAncestor b c headers)) =
      true) : Diverged headers a b := by
  refine ⟨hne,⟨?_,?_⟩,?_⟩
  · rw [← isAncestor_iff,hab]
    decide
  · rw [← isAncestor_iff,hba]
    decide
  · rintro ⟨c,hac,hbc⟩
    obtain ⟨p,hp,_⟩ := ancestor_iff_link.mp hac
    have hnot := List.all_eq_true.mp happart c (AList.mem_keys.mp (mem_of_parentsOf hp))
    rw [isAncestor_iff.mpr hac,isAncestor_iff.mpr hbc] at hnot
    cases hnot

/-- The merge joins the two tips that the copies had, and the deposit beside it has another base,
so detection is clean, though nothing joins the two. -/
theorem merged_branch_lost : (∃ w, exec twoCopies start depositBesideMerge = some w ∧
      (w.replica true).detectForks = .ok [] ∧ Writer (w.replica true) "account-1" 4 ∧
      Writer (w.replica true) "account-1" 5 ∧ Diverged (w.replica true).index.headers 4 5) ∧
    ¬ ∀ w : World Bool ℕ, Reachable twoCopies w → ∀ r, NoneLost (w.replica r) := by
  have hrun : (exec twoCopies start depositBesideMerge).map (fun w =>
      ((w.replica true).detectForks,
        ((w.replica true).files.filter fun t => t.events.any fun e => e.streamId = "account-1").map
          Transaction.id,
        isAncestor 4 5 (w.replica true).index.headers,isAncestor 5 4 (w.replica true).index.headers,
        (w.replica true).index.headers.keys.all fun c =>
          !(isAncestor 4 c (w.replica true).index.headers &&
            isAncestor 5 c (w.replica true).index.headers))) =
      some (.ok [],[1,3,2,4,5],false,false,true) := by decide +kernel
  obtain ⟨w,hw,hvalues⟩ := Option.map_eq_some_iff.mp hrun
  simp only [Prod.mk.injEq] at hvalues
  obtain ⟨hdetect,hwriters,hab,hba,happart⟩ := hvalues
  have hwriter : ∀ id ∈ [1,3,2,4,5], Writer (w.replica true) "account-1" id := by
    intro id hid
    rw [← hwriters] at hid
    obtain ⟨t,ht,hid⟩ := List.mem_map.mp hid
    obtain ⟨ht,he⟩ := List.mem_filter.mp ht
    obtain ⟨e,he,hs⟩ := List.any_eq_true.mp he
    exact ⟨t,ht,hid,e,he,of_decide_eq_true hs⟩
  have hdiverged := diverged_of_isAncestor (by decide) hab hba happart
  refine ⟨⟨w,hw,hdetect,hwriter 4 (by simp),hwriter 5 (by simp),hdiverged⟩,fun hall => ?_⟩
  have hnone := hall w (start_reachable.exec hw) true
  rcases hnone "account-1" 4 5 (hwriter 4 (by simp)) (hwriter 5 (by simp)) hdiverged with
    ⟨e,herr⟩ | ⟨forks,hok,f,hf,_⟩
  · rw [hdetect] at herr
    cases herr
  · rw [hdetect] at hok
    obtain rfl := Except.ok.inj hok
    cases hf

/-- Two copies make a deposit each and meet. -/
theorem none_lost_iff_meet : ∃ w, exec twoCopies start (divergeOn openOne) = some w ∧
    Along twoCopies (fun w => ∀ r, SameBaseReported (w.replica r)) start (divergeOn openOne) ∧
    (Along twoCopies (fun w => ∀ r, NoneLost (w.replica r)) start (divergeOn openOne) ↔
      AllSteps twoCopies Keeps start (divergeOn openOne)) := by
  have hrun : (exec twoCopies start (divergeOn openOne)).isSome = true := by decide +kernel
  obtain ⟨w,hw⟩ := Option.isSome_iff_exists.mp hrun
  exact ⟨w,hw,none_lost_iff ⟨rfl,fun r => if r then 2 else 1,by decide,fun _ => rfl⟩ hw⟩

end Scenarios

end LostDivergence
end EventCore
