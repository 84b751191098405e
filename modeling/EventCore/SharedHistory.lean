import EventCore.Linearization
import EventCore.Replicas

/-! What several working copies have in common: a transaction is the same in all of them, and every
copy holds the ancestors of what it holds. -/
namespace EventCore
namespace FileStore
open GraphSearch

variable {Any Raw Value E ι : Type}

theorem Sound.of_files {minted : List Uuid} {store store' : FileEventStore Value}
    (h : Sound minted store.reopen) (hfiles : store'.files = store.files) :
    Sound minted store'.reopen := by
  have hheaders : store'.reopen.index.headers = store.reopen.index.headers := by
    rw [reopen_headers,reopen_headers,hfiles]
  have htips : store'.reopen.index.tips = store.reopen.index.tips := by
    rw [reopen_tips,reopen_tips,hfiles]
  refine ⟨?_,fun _ => rfl,hheaders ▸ h.wellFormed,hheaders ▸ h.drawn,hheaders ▸ h.ranked,?_,?_⟩
  · exact (congrArg (fun files => (files.map Transaction.id).Nodup) hfiles).mpr h.nodup
  · rw [htips,hheaders]
    exact h.tips
  · rw [htips,hheaders]
    exact h.tipsCover

/-- Some headers of `whole`, with all their ancestors. -/
structure PartOf (part whole : Headers) : Prop where
  get? : ∀ {id header}, part.get? id = some header → whole.get? id = some header
  closed : ∀ {id parent}, parent ∈ parentsOf part id → parent ∈ part

section Part

variable {part whole : Headers} (h : PartOf part whole)
include h

theorem PartOf.get?_eq {id : Uuid} (hid : id ∈ part) : whole.get? id = part.get? id := by
  obtain ⟨header,hget⟩ := HashMap.exists_of_mem hid
  rw [hget,h.get? hget]

theorem PartOf.mem {id : Uuid} (hid : id ∈ part) : id ∈ whole := by
  obtain ⟨header,hget⟩ := HashMap.exists_of_mem hid
  exact HashMap.mem_of_get? (h.get? hget)

theorem PartOf.parentsOf_eq {id : Uuid} (hid : id ∈ part) : parentsOf whole id = parentsOf part id := by
  rw [parentsOf,parentsOf,h.get?_eq hid]

theorem PartOf.ancestor_iff {a d : Uuid} (hd : d ∈ part) :
    Ancestor (parentsOf whole) a d ↔ Ancestor (parentsOf part) a d :=
  ancestor_congr_closed (P := fun id => id ∈ part) (fun _ _ _ hp => h.closed hp)
    (fun _ hid => h.parentsOf_eq hid) hd

theorem PartOf.ancestorOrSelf_iff {a d : Uuid} (hd : d ∈ part) :
    AncestorOrSelf (parentsOf whole) a d ↔ AncestorOrSelf (parentsOf part) a d :=
  or_congr_right (h.ancestor_iff hd)

theorem PartOf.ancestor_mem {a d : Uuid} (hd : d ∈ part) (hanc : Ancestor (parentsOf whole) a d) :
    a ∈ part :=
  ((h.ancestor_iff hd).mp hanc).mem fun _ _ hp => h.closed hp

theorem PartOf.ancestorOrSelf_mem {a d : Uuid} (hd : d ∈ part)
    (hanc : AncestorOrSelf (parentsOf whole) a d) : a ∈ part := by
  rcases hanc with rfl | hanc
  · exact hd
  · exact h.ancestor_mem hd hanc

theorem PartOf.extending_iff {stream : String} {base : ℕ} {id : Uuid} (hid : id ∈ part) :
    Extending whole stream base id ↔ Extending part stream base id := by
  rw [Extending,Extending,h.get?_eq hid]

theorem PartOf.replicasChained (hchain : ReplicasChained whole) : ReplicasChained part := by
  intro a b ha hb hga hgb hrep hab
  rw [← h.ancestor_iff (HashMap.mem_of_get? hgb),← h.ancestor_iff (HashMap.mem_of_get? hga)]
  exact hchain a b ha hb (h.get? hga) (h.get? hgb) hrep hab

theorem PartOf.extend_whole {header : TransactionHeader} (hnew : header.transactionId ∉ whole) :
    PartOf part (extend whole header) :=
  ⟨fun hget => get?_extend hnew (h.get? hget),h.closed⟩

theorem PartOf.extend {header : TransactionHeader}
    (hparents : ∀ p ∈ header.parentTransactionIds, p ∈ part) :
    PartOf (extend part header) (extend whole header) := by
  refine ⟨fun {id header'} hget => ?_,fun {id parent} hp => ?_⟩
  · rw [HashMap.get?_insert] at hget ⊢
    split_ifs at hget ⊢
    · exact hget
    · exact h.get? hget
  · rw [parentsOf_insert] at hp
    split_ifs at hp
    · exact mem_extend.mpr (.inr (hparents parent hp))
    · exact mem_extend.mpr (.inr (h.closed hp))

theorem PartOf.acyclic (hacyclic : Acyclic whole) : Acyclic part := by
  intro id hcycle
  obtain ⟨parent,hp,_⟩ := ancestor_iff_link.mp hcycle
  exact hacyclic id ((h.ancestor_iff (mem_of_parentsOf hp)).mpr hcycle)

theorem PartOf.depth_eq (hacyclic : Acyclic whole) {id : Uuid} (hid : id ∈ part) :
    depth whole id = depth part id := by
  obtain ⟨rank,hrank⟩ := hacyclic.exists_rank
  obtain ⟨bound,hbound⟩ : ∃ bound, rank id < bound := ⟨_,Nat.lt_succ_self _⟩
  induction bound generalizing id with
  | zero => cases hbound
  | succ bound ih =>
    rw [FileStore.depth_eq hacyclic,FileStore.depth_eq (h.acyclic hacyclic),h.parentsOf_eq hid]
    refine depthOver_congr (fun parent hp => h.closed hp) (fun parent hp => h.mem (h.closed hp))
      fun parent hp => ?_
    have hlt := hrank.link id parent (h.parentsOf_eq hid ▸ hp) (h.mem (h.closed hp))
    exact ih (h.closed hp) (by omega)

theorem PartOf.linearKey_eq (hacyclic : Acyclic whole) {id : Uuid} (hid : id ∈ part) :
    linearKey whole id = linearKey part id := by
  obtain ⟨header,hget⟩ := HashMap.exists_of_mem hid
  rw [FileStore.linearKey_eq hget,FileStore.linearKey_eq (h.get? hget),h.depth_eq hacyclic hid]

end Part

/-- `whole` is put together from two parts. -/
structure UnionOf (mine theirs whole : Headers) : Prop where
  left : PartOf mine whole
  right : PartOf theirs whole
  mem : ∀ {id}, id ∈ whole → id ∈ mine ∨ id ∈ theirs

section Union

variable {mine theirs whole : Headers}

theorem UnionOf.symm (h : UnionOf mine theirs whole) : UnionOf theirs mine whole :=
  ⟨h.right,h.left,fun hid => (h.mem hid).symm⟩

theorem UnionOf.extending_iff (h : UnionOf mine theirs whole) {stream : String} {base : ℕ}
    {id : Uuid} : Extending whole stream base id ↔
      Extending mine stream base id ∨ Extending theirs stream base id := by
  constructor
  · intro hext
    rcases h.mem (extending_mem hext) with hid | hid
    · exact .inl ((h.left.extending_iff hid).mp hext)
    · exact .inr ((h.right.extending_iff hid).mp hext)
  · rintro (hext | hext)
    · exact (h.left.extending_iff (extending_mem hext)).mpr hext
    · exact (h.right.extending_iff (extending_mem hext)).mpr hext

theorem UnionOf.no_descendant (h : UnionOf mine theirs whole) {a b c : Uuid} (ha : a ∉ theirs)
    (hb : b ∉ mine) (hc : c ∈ whole) (hac : AncestorOrSelf (parentsOf whole) a c)
    (hbc : AncestorOrSelf (parentsOf whole) b c) : False := by
  rcases h.mem hc with hc | hc
  · exact hb (h.left.ancestorOrSelf_mem hc hbc)
  · exact ha (h.right.ancestorOrSelf_mem hc hac)

end Union

def World.Agree (w : World ι Value) : Prop :=
  ∀ r r', ∀ t ∈ (w.replica r).files, ∀ u ∈ (w.replica r').files, t.id = u.id → t = u

section Files

variable [DecidableEq ι] {parse : Raw → Option Value} {w w' : World ι Value}

theorem World.step_files {l : Action ι Any Raw Value E}
    (hstep : (system Any E parse).step w l = some w') :
    ∃ r₀, (∀ r, r ≠ r₀ → w'.replica r = w.replica r) ∧
      ∀ t ∈ (w'.replica r₀).files, (∃ r, t ∈ (w.replica r).files) ∨ t.id ∉ w.minted := by
  obtain ⟨r,store,ids,heffect,rfl⟩ := World.step_cases hstep
  refine ⟨r,fun r' hr => Function.update_of_ne hr _ _,?_⟩
  simp only [Function.update_self]
  intro t ht
  cases heffect with
  | @append _ writes stamp hfresh =>
    rcases appendEvents_store parse (w.replica r) stamp writes with hrun | ⟨u,hprep,hrun⟩
    · exact .inl ⟨r,hrun ▸ ht⟩
    · rw [hrun,commit_files] at ht
      rcases List.mem_append.mp ht with ht | ht
      · exact .inl ⟨r,ht⟩
      · obtain rfl := List.mem_singleton.mp ht
        exact .inr ((prepareAppend_eq_ok hprep).1 ▸ hfresh)
  | reopen => exact .inl ⟨r,ht⟩
  | reconcile _ hfresh =>
    revert t
    unfold reconcile
    unfold forkCount at hfresh
    cases hdetect : (w.replica r).detectForks with
    | error e => exact fun t ht => .inl ⟨r,ht⟩
    | ok forks =>
      simp only [hdetect] at hfresh
      refine reconcileForks_induct (P := fun store => ∀ t ∈ store.files,
        (∃ r, t ∈ (w.replica r).files) ∨ t.id ∉ w.minted) ?_ fun t ht => .inl ⟨r,ht⟩
      intro store fork _ k hk items hstore t ht
      rcases List.mem_append.mp ht with ht | ht
      · exact hstore t ht
      · obtain rfl := List.mem_singleton.mp ht
        exact .inr (hfresh _ (List.mem_map_of_mem hk))
  | @merge _ source =>
    rcases List.mem_append.mp ht with ht | ht
    · exact .inl ⟨r,ht⟩
    · exact .inl ⟨source,(List.mem_filter.mp ht).1⟩

theorem World.Agree.step (h : w.Agree) (hs : ∀ r, Sound w.minted (w.replica r))
    (hs' : ∀ r, Sound w'.minted (w'.replica r)) {l : Action ι Any Raw Value E}
    (hstep : (system Any E parse).step w l = some w') : w'.Agree := by
  obtain ⟨r₀,hothers,hfiles⟩ := World.step_files hstep
  have hdrawn : ∀ r, ∀ t ∈ (w.replica r).files, t.id ∈ w.minted :=
    fun r t ht => (hs r).drawn ((hs r).mem_headers ht)
  have hmixed : ∀ r, r ≠ r₀ → ∀ t ∈ (w'.replica r).files, ∀ u ∈ (w'.replica r₀).files,
      t.id = u.id → t = u := by
    intro r hr t ht u hu hid
    rw [hothers r hr] at ht
    rcases hfiles u hu with ⟨r',hu⟩ | hnew
    · exact h r r' t ht u hu hid
    · exact absurd (hid ▸ hdrawn r t ht) hnew
  intro r r' t ht u hu hid
  by_cases hr : r = r₀
  · subst hr
    by_cases hr' : r' = r
    · subst hr'
      exact List.inj_on_of_nodup_map (hs' r').nodup ht hu hid
    · exact (hmixed r' hr' u hu t ht hid.symm).symm
  · by_cases hr' : r' = r₀
    · subst hr'
      exact hmixed r hr t ht u hu hid
    · rw [hothers r hr] at ht
      rw [hothers r' hr'] at hu
      exact h r r' t ht u hu hid

theorem World.agree_of_reachable (hw : Runs.Reachable (system Any E parse) w) : w.Agree := by
  induction hw with
  | init h =>
    obtain ⟨_,replicaId,_,hcreate⟩ := h
    intro r r' t ht
    rw [hcreate] at ht
    cases ht
  | step hw _ hstep ih =>
    exact ih.step (World.sound_of_reachable hw)
      (World.sound_of_reachable (hw.step trivial hstep)) hstep

end Files

section Merge

variable {minted : List Uuid} {mine theirs : FileEventStore Value}

theorem unionOf_merge (hs : Sound minted mine) (hst : Sound minted theirs)
    (hagree : ∀ t ∈ mine.files, ∀ u ∈ theirs.files, t.id = u.id → t = u) :
    UnionOf mine.index.headers theirs.index.headers
      ({ mine with files := unionFiles mine.files theirs.files } :
        FileEventStore Value).reopen.index.headers := by
  have hunion := hs.union hst
  refine ⟨⟨?_,fun hp => hs.wellFormed.closed hp⟩,⟨?_,fun hp => hst.wellFormed.closed hp⟩,?_⟩
  · intro id header hget
    obtain ⟨t,ht,rfl,rfl⟩ := hs.exists_file hget
    exact hunion.get?_of_mem (List.mem_append_left _ ht)
  · intro id header hget
    obtain ⟨t,ht,rfl,rfl⟩ := hst.exists_file hget
    refine hunion.get?_of_mem ?_
    by_cases hid : t.id ∈ mine.files.map Transaction.id
    · obtain ⟨u,hu,hut⟩ := List.mem_map.mp hid
      exact List.mem_append_left _ (hagree u hu t ht hut ▸ hu)
    · exact List.mem_append_right _ (List.mem_filter.mpr ⟨ht,decide_eq_true hid⟩)
  · intro id hid
    obtain ⟨header,hget⟩ := HashMap.exists_of_mem hid
    obtain ⟨t,ht,rfl,_⟩ := hunion.exists_file hget
    rcases List.mem_append.mp ht with ht | ht
    · exact .inl (hs.mem_headers ht)
    · exact .inr (hst.mem_headers (List.mem_filter.mp ht).1)

end Merge

end FileStore
end EventCore
