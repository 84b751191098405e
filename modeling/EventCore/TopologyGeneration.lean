import EventCore.LiveIndex

/-! The counter by which a projection is to notice that events went in front of others. It counts
the transactions with several parents, and a union of two histories need not bring any. -/
namespace EventCore
namespace TopologyGeneration
open FileStore GraphSearch Grouping Runs
open LiveIndex (acyclic_of_sound depth_extend depth_extend_self depth_le_of_ancestorOrSelf)
open LocalIngestion (eventsOf)

variable {Any Raw Value E ι : Type}

/-- `FileEventStore::topology_generation`. -/
def topologyGeneration (store : FileEventStore Value) : ℕ :=
  (store.index.headers.entries.filter fun p => p.2.parentTransactionIds.length > 1).length

/-- The value never falls, and it rises whenever what was there is no longer what the canonical
order begins with. -/
structure Signals (before after : FileEventStore Value) : Prop where
  le : topologyGeneration before ≤ topologyGeneration after
  lt : ¬ canonicalEvents before.files <+: canonicalEvents after.files →
    topologyGeneration before < topologyGeneration after

theorem Signals.trans {a b c : FileEventStore Value} (hab : Signals a b) (hbc : Signals b c) :
    Signals a c := by
  refine ⟨hab.le.trans hbc.le,fun hnot => ?_⟩
  by_cases hfirst : canonicalEvents a.files <+: canonicalEvents b.files
  · exact hab.le.trans_lt (hbc.lt fun hsecond => hnot (hfirst.trans hsecond))
  · exact (hab.lt hfirst).trans_le hbc.le

def joined (before after : List (Transaction Value)) : List (Transaction Value) :=
  after.filter fun t => t.id ∉ before.map Transaction.id

def BringsMerge (before after : List (Transaction Value)) : Prop :=
  ∃ t ∈ joined before after, t.header.parentTransactionIds.length > 1

/-- Whatever has events and joins is put behind all that has events and was there. -/
def JoinsBehind (before after : List (Transaction Value)) : Prop :=
  ∀ t ∈ joined before after, t.events ≠ [] → ∀ u ∈ before, u.events ≠ [] →
    linearKey (headersOf after) u.id < linearKey (headersOf after) t.id

section Growth

variable {minted minted' : List Uuid} {before after : FileEventStore Value}

theorem topologyGeneration_eq (h : Sound minted before) : topologyGeneration before =
    before.files.countP fun t => t.header.parentTransactionIds.length > 1 := by
  have hentries : before.index.headers.entries.Perm
      (before.files.map fun t => (⟨t.id,t.header⟩ : Sigma fun _ : Uuid => TransactionHeader)) := by
    have hnodup : (before.files.map
        fun t => (⟨t.id,t.header⟩ : Sigma fun _ : Uuid => TransactionHeader)).Nodup := by
      refine List.Nodup.of_map Sigma.fst ?_
      rw [List.map_map]
      exact h.nodup
    refine (List.perm_ext_iff_of_nodup before.index.headers.nodupKeys.nodup hnodup).mpr ?_
    rintro ⟨id,header⟩
    rw [HashMap.mem_entries_iff,h.headers,headersOf_get? h.nodup,List.mem_map]
    simp only [Sigma.mk.injEq,heq_eq_eq]
  rw [topologyGeneration,← List.countP_eq_length_filter,hentries.countP_eq,List.countP_map]
  rfl

theorem joined_eq {files more : List (Transaction Value)}
    (hnodup : ((files ++ more).map Transaction.id).Nodup) : joined files (files ++ more) = more := by
  rw [List.map_append,List.nodup_append] at hnodup
  have hold : files.filter (fun t => t.id ∉ files.map Transaction.id) = [] := by
    refine List.filter_eq_nil_iff.mpr fun t ht => ?_
    simpa using ⟨t,ht,rfl⟩
  have hnew : more.filter (fun t => t.id ∉ files.map Transaction.id) = more := by
    refine List.filter_eq_self.mpr fun t ht => decide_eq_true fun hmem => ?_
    exact hnodup.2.2 _ hmem _ (List.mem_map_of_mem ht) rfl
  rw [joined,List.filter_append,hold,hnew,List.nil_append]

variable (h : Sound minted before) (h' : Sound minted' after) {more : List (Transaction Value)}
  (hfiles : after.files = before.files ++ more)
include h' hfiles

theorem joined_growth : joined before.files after.files = more := by
  rw [hfiles]
  exact joined_eq (hfiles ▸ h'.nodup)

theorem canonicalEvents_after : canonicalEvents after.files =
    ((before.files ++ more).insertionSort fun t u => linearKey (headersOf after.files) t.id ≤
      linearKey (headersOf after.files) u.id).flatMap
        fun t => t.events.map EventEnvelope.indexed := by
  rw [canonicalEvents_eq h'.nodup,canonicalOrder,hfiles]

theorem joinsBehind_iff : JoinsBehind before.files after.files ↔
    ∀ t ∈ more, t.events.map EventEnvelope.indexed ≠ [] → ∀ u ∈ before.files,
      u.events.map EventEnvelope.indexed ≠ [] →
        linearKey (headersOf after.files) u.id < linearKey (headersOf after.files) t.id := by
  simp only [JoinsBehind,joined_growth h' hfiles,ne_eq,List.map_eq_nil_iff]

theorem keys_nodup : ((before.files ++ more).map
    fun t => linearKey (headersOf after.files) t.id).Nodup := by
  have hinjective := h'.nodup.map (linearKey_injective (headersOf after.files))
  rw [List.map_map] at hinjective
  rw [← hfiles]
  exact hinjective

include h

theorem topologyGeneration_le : topologyGeneration before ≤ topologyGeneration after := by
  rw [topologyGeneration_eq h,topologyGeneration_eq h',hfiles,List.countP_append]
  exact Nat.le_add_right _ _

theorem topologyGeneration_lt_iff : topologyGeneration before < topologyGeneration after ↔
    BringsMerge before.files after.files := by
  rw [BringsMerge,joined_growth h' hfiles,topologyGeneration_eq h,topologyGeneration_eq h',hfiles,
    List.countP_append,Nat.lt_add_right_iff_pos,List.countP_pos_iff]
  simp only [decide_eq_true_eq]

theorem canonicalEvents_before : canonicalEvents before.files =
    (before.files.insertionSort fun t u => linearKey (headersOf after.files) t.id ≤
      linearKey (headersOf after.files) u.id).flatMap
        fun t => t.events.map EventEnvelope.indexed := by
  have hpart : PartOf before.index.headers after.index.headers := by
    refine ⟨fun {id header} hget => ?_,fun hp => h.wellFormed.closed hp⟩
    obtain ⟨t,ht,rfl,rfl⟩ := h.exists_file hget
    exact h'.get?_of_mem (hfiles ▸ List.mem_append_left more ht)
  have hkey : ∀ t ∈ before.files,
      linearKey (headersOf after.files) t.id = linearKey (headersOf before.files) t.id := by
    intro t ht
    rw [linearKey_congr fun id => (h'.headers id).symm,
      linearKey_congr fun id => (h.headers id).symm]
    exact hpart.linearKey_eq (acyclic_of_sound h') (h.mem_headers ht)
  have hkeys : (before.files.map fun t => linearKey (headersOf before.files) t.id).Nodup := by
    have hinjective := h.nodup.map (linearKey_injective (headersOf before.files))
    rwa [List.map_map] at hinjective
  have hsort : (before.files.insertionSort fun t u => linearKey (headersOf after.files) t.id ≤
      linearKey (headersOf after.files) u.id) = canonicalOrder before.files := by
    refine sortBy_eq (canonicalOrder_perm _) ((pairwise_lt_sortBy hkeys).imp_of_mem ?_)
    intro t u ht hu hlt
    rwa [hkey t ((List.mem_insertionSort _).mp ht),hkey u ((List.mem_insertionSort _).mp hu)]
  rw [canonicalEvents_eq h.nodup,hsort]

theorem signals_of (hjoin : BringsMerge before.files after.files ∨
    JoinsBehind before.files after.files) : Signals before after := by
  refine ⟨topologyGeneration_le h h' hfiles,fun hnot => ?_⟩
  rcases hjoin with hmerge | hbehind
  · exact (topologyGeneration_lt_iff h h' hfiles).mpr hmerge
  · refine absurd ?_ hnot
    rw [canonicalEvents_before h h' hfiles,canonicalEvents_after h' hfiles]
    exact flatMap_sortBy_begins (keys_nodup h' hfiles)
      ((joinsBehind_iff h' hfiles).mp hbehind)

/-- The counter tells what it is to tell just when a transaction with several parents joins, or all
events that join are put behind those that were there. -/
theorem signals_iff (hids : ((eventsOf after.files).map IndexedEvent.eventId).Nodup) :
    Signals before after ↔
      BringsMerge before.files after.files ∨ JoinsBehind before.files after.files := by
  refine ⟨fun hsignals => ?_,signals_of h h' hfiles⟩
  rw [← topologyGeneration_lt_iff h h' hfiles]
  by_cases hprefix : canonicalEvents before.files <+: canonicalEvents after.files
  · right
    rw [joinsBehind_iff h' hfiles]
    rw [canonicalEvents_before h h' hfiles,canonicalEvents_after h' hfiles] at hprefix
    refine (flatMap_sortBy_begins_iff (keys_nodup h' hfiles) ?_).mp hprefix
    rw [hfiles] at hids
    exact hids.of_map _
  · exact .inl (hsignals.lt hprefix)

end Growth

section Run

variable [DecidableEq ι] {parse : Raw → Option Value} {w w' : World ι Value}

theorem joinsBehind_refl (files : List (Transaction Value)) : JoinsBehind files files := by
  intro t ht
  obtain ⟨hmem,hnew⟩ := List.mem_filter.mp ht
  exact absurd (List.mem_map_of_mem hmem) (of_decide_eq_true hnew)

def Announced (w : World ι Value) : Action ι Any Raw Value E → Prop
  | .merge r source =>
    BringsMerge (w.replica r).files (unionFiles (w.replica r).files (w.replica source).files) ∨
      JoinsBehind (w.replica r).files (unionFiles (w.replica r).files (w.replica source).files)
  | _ => True

theorem append_joinsBehind {minted : List Uuid} {store : FileEventStore Value} {t : Transaction Value}
    (h : Sound minted store) (hfresh : t.id ∉ minted)
    (h' : Sound (minted ++ [t.id]) (store.commit t fun _ => [t.id]))
    (hparents : t.header.parentTransactionIds = store.index.tips) :
    JoinsBehind store.files (store.files ++ [t]) := by
  have hjoined : joined store.files (store.files ++ [t]) = [t] := joined_eq h'.nodup
  have hnew : t.header.transactionId ∉ store.index.headers := fun hmem => hfresh (h.drawn hmem)
  have hacyclic := acyclic_of_sound h'
  have hkey : linearKey (headersOf (store.files ++ [t])) =
      linearKey (extend store.index.headers t.header) := by
    have hsame := h'.headers
    rw [commit_headers,commit_files] at hsame
    exact linearKey_congr fun id => (hsame id).symm
  rw [commit_headers] at hacyclic
  intro v hv _ u hu _
  obtain rfl : v = t := List.mem_singleton.mp (hjoined ▸ hv)
  have hmem := h.mem_headers hu
  obtain ⟨tip,htip,hbelow⟩ := h.below_tips hmem
  have hself : (extend store.index.headers v.header).get? v.id = some v.header :=
    HashMap.get?_insert_self _ _ _
  have hdepth : depth (extend store.index.headers v.header) u.id <
      depth (extend store.index.headers v.header) v.id := by
    rw [depth_extend h.wellFormed hacyclic hnew hmem,
      depth_extend_self h.wellFormed hacyclic hnew fun p hp => h.tips (hparents ▸ hp)]
    refine (depth_le_of_ancestorOrSelf h.wellFormed (acyclic_of_sound h) hbelow).trans_lt ?_
    exact depth_lt_depthOver (hparents ▸ htip) (h.tips htip)
  rw [hkey,linearKey_eq (get?_extend hnew (h.get?_of_mem hu)),linearKey_eq hself]
  exact Prod.Lex.toLex_lt_toLex.mpr (.inl hdepth)

theorem fork_several {headers : Headers} (hwf : WellFormed headers) {forks : List Fork}
    (hdetect : detectForksIn headers = .ok forks) {f : Fork} (hf : f ∈ forks) :
    f.transactions.length > 1 := by
  obtain ⟨a,b,hne,ha,hb⟩ : ∃ a b, a ≠ b ∧ Extending headers f.streamId.value f.baseVersion a ∧
      Extending headers f.streamId.value f.baseVersion b :=
    (((detectForksIn_eq_ok hwf hdetect).2 f).mp hf).1.1
  rw [← fork_transactions_mem hwf hdetect hf] at ha hb
  match hparents : f.transactions with
  | [] => simp [hparents] at ha
  | [x] =>
    rw [hparents,List.mem_singleton] at ha hb
    exact absurd (ha.trans hb.symm) hne
  | x :: y :: rest => simp

theorem reconcile_joins {minted : List Uuid} {store : FileEventStore Value} (h : Sound minted store)
    (form : ValueForm Value E) (resolver : ForkContext E → ResolutionOutcome E)
    (stamp : ℕ → Stamp) : ∃ more, (reconcile form resolver stamp store).2.files =
      store.files ++ more ∧ ∀ t ∈ more, t.header.parentTransactionIds.length > 1 := by
  unfold reconcile
  cases hdetect : store.detectForks with
  | error e => exact ⟨[],by simp,by simp⟩
  | ok forks =>
    refine reconcileForks_induct (P := fun merged => ∃ more, merged.files = store.files ++ more ∧
      ∀ t ∈ more, t.header.parentTransactionIds.length > 1) ?_
      ⟨[],(List.append_nil store.files).symm,by simp⟩
    rintro merged fork hfork k _ items ⟨more,hfiles,hmore⟩
    refine ⟨more ++ [mergeTransaction merged (stamp k) fork items],?_,?_⟩
    · rw [commit_files,hfiles,List.append_assoc]
    · intro t ht
      rcases List.mem_append.mp ht with ht | ht
      · exact hmore t ht
      · rw [List.mem_singleton.mp ht]
        exact fork_several h.wellFormed hdetect hfork

theorem step_joins {l : Action ι Any Raw Value E} (hw : Reachable (system Any E parse) w)
    (hstep : (system Any E parse).step w l = some w') (r : ι) :
    ∃ more, (w'.replica r).files = (w.replica r).files ++ more ∧
      (Announced w l → BringsMerge (w.replica r).files (w'.replica r).files ∨
        JoinsBehind (w.replica r).files (w'.replica r).files) := by
  have hw' : Sound w'.minted (w'.replica r) := World.sound_of_reachable (hw.step trivial hstep) r
  have hsame : (w'.replica r).files = (w.replica r).files →
      ∃ more, (w'.replica r).files = (w.replica r).files ++ more ∧
        (Announced w l → BringsMerge (w.replica r).files (w'.replica r).files ∨
          JoinsBehind (w.replica r).files (w'.replica r).files) := by
    intro h
    rw [h]
    exact ⟨[],(List.append_nil _).symm,fun _ => .inr (joinsBehind_refl _)⟩
  obtain ⟨r₀,store,ids,heffect,rfl⟩ := World.step_cases hstep
  by_cases hr : r = r₀
  · subst hr
    simp only [Function.update_self] at hsame hw' ⊢
    cases heffect with
    | @append _ writes stamp hfresh =>
      rcases appendEvents_store parse (w.replica r) stamp writes with hrun | ⟨t,hprep,hrun⟩
      · exact hsame (congrArg FileEventStore.files hrun)
      · obtain ⟨hid,_,hparents,_⟩ := prepareAppend_eq_ok hprep
        rw [hrun,← hid] at hw'
        rw [hrun]
        refine ⟨[t],rfl,fun _ => .inr ?_⟩
        exact append_joinsBehind (World.sound_of_reachable hw r) (hid ▸ hfresh) hw' hparents
    | reopen => exact hsame (reopen_files _)
    | @reconcile _ form resolver stamp =>
      obtain ⟨more,hfiles,hmore⟩ :=
        reconcile_joins (World.sound_of_reachable hw r) form resolver stamp
      cases more with
      | nil => exact hsame (by rw [hfiles,List.append_nil])
      | cons t more =>
        refine ⟨t :: more,hfiles,fun _ => .inl ⟨t,?_,hmore t List.mem_cons_self⟩⟩
        rw [joined_growth hw' hfiles]
        exact List.mem_cons_self
    | merge =>
      simp only [reopen_files]
      exact ⟨_,rfl,id⟩
  · exact hsame (congrArg FileEventStore.files (Function.update_of_ne hr _ _))

theorem exec_grows {labels : List (Action ι Any Raw Value E)}
    (hw : Reachable (system Any E parse) w)
    (hrun : exec (system Any E parse) w labels = some w') (r : ι) :
    ∃ more, (w'.replica r).files = (w.replica r).files ++ more := by
  induction labels generalizing w with
  | nil =>
    obtain rfl := Option.some.inj hrun
    exact ⟨[],(List.append_nil _).symm⟩
  | cons l labels ih =>
    obtain ⟨v,hstep,hrest⟩ := Option.bind_eq_some_iff.mp hrun
    obtain ⟨more,hfiles,_⟩ := step_joins hw hstep r
    obtain ⟨more',hfiles'⟩ := ih (hw.step trivial hstep) hrest
    exact ⟨more ++ more',by rw [hfiles',hfiles,List.append_assoc]⟩

theorem signals_exec {labels : List (Action ι Any Raw Value E)}
    (hw : Reachable (system Any E parse) w)
    (hrun : exec (system Any E parse) w labels = some w')
    (hall : AllSteps (system Any E parse) Announced w labels) (r : ι) :
    Signals (w.replica r) (w'.replica r) := by
  induction labels generalizing w with
  | nil =>
    obtain rfl := Option.some.inj hrun
    exact ⟨le_rfl,fun hnot => absurd (List.prefix_refl _) hnot⟩
  | cons l labels ih =>
    obtain ⟨v,hstep,hrest⟩ := Option.bind_eq_some_iff.mp hrun
    have hv := hw.step trivial hstep
    obtain ⟨more,hfiles,hjoins⟩ := step_joins hw hstep r
    have hfirst := signals_of (World.sound_of_reachable hw r) (World.sound_of_reachable hv r) hfiles
      (hjoins hall.1)
    exact hfirst.trans (ih hv hrest (hall.2 v hstep))

/-- Between any two moments of any history the value of a working copy never falls. It has risen
wherever events went in front of others, exactly if a transaction with several parents joined or
all events that joined are put behind those that were there. Appends, merges and reopens see to
that by themselves, so it is enough that every union does. -/
theorem topologyGeneration_signals_iff {labels : List (Action ι Any Raw Value E)}
    (hw : Reachable (system Any E parse) w)
    (hrun : exec (system Any E parse) w labels = some w') (r : ι) :
    topologyGeneration (w.replica r) ≤ topologyGeneration (w'.replica r) ∧
    (((eventsOf (w'.replica r).files).map IndexedEvent.eventId).Nodup →
      (Signals (w.replica r) (w'.replica r) ↔
        BringsMerge (w.replica r).files (w'.replica r).files ∨
          JoinsBehind (w.replica r).files (w'.replica r).files)) ∧
    (AllSteps (system Any E parse) Announced w labels → Signals (w.replica r) (w'.replica r)) := by
  have hs := World.sound_of_reachable hw r
  have hs' := World.sound_of_reachable (hw.exec hrun) r
  obtain ⟨more,hfiles⟩ := exec_grows hw hrun r
  exact ⟨topologyGeneration_le hs hs' hfiles,signals_iff hs hs' hfiles,
    fun hall => signals_exec hw hrun hall r⟩

end Run

section Scenarios
open TwoCopies

/-- Each copy makes a deposit; the copy whose deposit sorts last takes in the other one. -/
theorem union_unannounced :
    (∃ w w', Reachable twoCopies w ∧ twoCopies.step w (.merge true false) = some w' ∧
      topologyGeneration (w.replica true) = 0 ∧ topologyGeneration (w'.replica true) = 0 ∧
      (canonicalEvents (w.replica true).files).map IndexedEvent.eventId = [200] ∧
      (canonicalEvents (w'.replica true).files).map IndexedEvent.eventId = [100,200]) ∧
    ¬ ∀ (w w' : World Bool ℕ) (labels : List (Action Bool ℕ ℕ ℕ ℕ)), Reachable twoCopies w →
      exec twoCopies w labels = some w' → ∀ r, Signals (w.replica r) (w'.replica r) := by
  let apart : List (Action Bool ℕ ℕ ℕ ℕ) :=
    [.append false openOne (stamp 1),.append true openOne (stamp 2)]
  have hrun : (exec twoCopies start apart).bind (fun w =>
      (twoCopies.step w (.merge true false)).map fun w' =>
        (topologyGeneration (w.replica true),topologyGeneration (w'.replica true),
          (canonicalEvents (w.replica true).files).map IndexedEvent.eventId,
          (canonicalEvents (w'.replica true).files).map IndexedEvent.eventId)) =
      some (0,0,[200],[100,200]) := by decide +kernel
  obtain ⟨w,hw,hstep⟩ := Option.bind_eq_some_iff.mp hrun
  obtain ⟨w',hw',hvalues⟩ := Option.map_eq_some_iff.mp hstep
  simp only [Prod.mk.injEq] at hvalues
  obtain ⟨hbefore,hafter,hold,hnew⟩ := hvalues
  have hreach : Reachable twoCopies w := start_reachable.exec hw
  refine ⟨⟨w,w',hreach,hw',hbefore,hafter,hold,hnew⟩,fun hall => ?_⟩
  have hone : exec twoCopies w [.merge true false] = some w' := by
    rw [exec_cons,hw']
    rfl
  have hlt := (hall w w' [.merge true false] hreach hone true).lt fun hprefix => by
    have hids := hprefix.map IndexedEvent.eventId
    rw [hold,hnew] at hids
    exact absurd hids (by decide)
  omega

/-- The same union. -/
theorem topologyGeneration_signals_iff_meet :
    ∃ w, exec twoCopies start (divergeOn openOne) = some w ∧
    topologyGeneration (start.replica true) ≤ topologyGeneration (w.replica true) ∧
    (Signals (start.replica true) (w.replica true) ↔
      BringsMerge (start.replica true).files (w.replica true).files ∨
        JoinsBehind (start.replica true).files (w.replica true).files) ∧
    (AllSteps twoCopies Announced start (divergeOn openOne) →
      Signals (start.replica true) (w.replica true)) := by
  have hrun : (exec twoCopies start (divergeOn openOne)).map (fun w =>
      (eventsOf (w.replica true).files).map IndexedEvent.eventId) = some [200,100] := by
    decide +kernel
  obtain ⟨w,hw,hids⟩ := Option.map_eq_some_iff.mp hrun
  obtain ⟨hle,hiff,hall⟩ := topologyGeneration_signals_iff start_reachable hw true
  exact ⟨w,hw,hle,hiff (by rw [hids]; decide),hall⟩

end Scenarios

end TopologyGeneration
end EventCore
