import EventCore.FileMerge

/-! What one fresh transaction on top of present parents changes in the transaction graph:
ancestors, groups, forks and replica chains of the extended header map. -/
namespace EventCore
namespace FileStore
open GraphSearch

/-- Two header maps with the same content, in whatever order. -/
def SameHeaders (headers headers' : Headers) : Prop := ∀ id, headers.get? id = headers'.get? id

section Same

variable {headers headers' : Headers} (h : SameHeaders headers headers')
include h

theorem SameHeaders.symm : SameHeaders headers' headers := fun id => (h id).symm

theorem SameHeaders.mem_iff {id : Uuid} : id ∈ headers ↔ id ∈ headers' := by
  rw [← HashMap.get?_isSome_iff,← HashMap.get?_isSome_iff,h]

theorem SameHeaders.parentsOf : parentsOf headers = parentsOf headers' := by
  funext id
  unfold FileStore.parentsOf
  rw [h]

theorem SameHeaders.wellFormed (hwf : WellFormed headers) : WellFormed headers' where
  keyed hget := hwf.keyed ((h _).trans hget)
  closed hp := h.mem_iff.mp (hwf.closed (h.parentsOf ▸ hp))
  valid hget := hwf.valid ((h _).trans hget)

theorem SameHeaders.replicasChained (hchain : ReplicasChained headers) :
    ReplicasChained headers' := by
  intro a b ha hb hga hgb
  rw [← h.parentsOf]
  exact hchain a b ha hb ((h a).trans hga) ((h b).trans hgb)

theorem SameHeaders.extending_iff {stream : String} {base : ℕ} {id : Uuid} :
    Extending headers stream base id ↔ Extending headers' stream base id := by
  unfold Extending
  rw [h]

theorem SameHeaders.forked_iff {stream : String} {base : ℕ} :
    Forked headers stream base ↔ Forked headers' stream base := by
  unfold Forked
  simp only [h.extending_iff,h.parentsOf,h.mem_iff]

theorem SameHeaders.detectForksIn_eq_nil (hwf : WellFormed headers) :
    detectForksIn headers = .ok [] ↔ detectForksIn headers' = .ok [] := by
  rw [FileStore.detectForksIn_eq_nil hwf,FileStore.detectForksIn_eq_nil (h.wellFormed hwf)]
  simp only [h.forked_iff]
  exact and_congr_left fun _ => ⟨h.replicasChained,h.symm.replicasChained⟩

end Same

section Fresh

variable {headers : Headers} {header : TransactionHeader}

abbrev extend (headers : Headers) (header : TransactionHeader) : Headers :=
  headers.insert header.transactionId header

theorem mem_extend {id : Uuid} :
    id ∈ extend headers header ↔ id = header.transactionId ∨ id ∈ headers := AList.mem_insert _

theorem get?_extend {header' : TransactionHeader} {id : Uuid}
    (hfresh : header.transactionId ∉ headers) (hget : headers.get? id = some header') :
    (extend headers header).get? id = some header' := by
  rw [HashMap.get?_insert,if_neg,hget]
  rintro rfl
  exact hfresh (HashMap.mem_of_get? hget)

theorem WellFormed.not_parent (hwf : WellFormed headers) (hfresh : header.transactionId ∉ headers)
    (id : Uuid) : header.transactionId ∉ parentsOf headers id :=
  fun hp => hfresh (hwf.closed hp)

theorem ancestor_mem (hwf : WellFormed headers) {a d : Uuid}
    (h : Ancestor (parentsOf headers) a d) : a ∈ headers :=
  h.mem fun _ _ hp => hwf.closed hp

theorem parentsOf_extend_ne {id : Uuid} (h : id ≠ header.transactionId) :
    parentsOf (extend headers header) id = parentsOf headers id := by
  rw [parentsOf_insert,if_neg h]

@[simp] theorem parentsOf_extend_self :
    parentsOf (extend headers header) header.transactionId = header.parentTransactionIds := by
  rw [parentsOf_insert,if_pos rfl]

theorem ancestor_extend_ne (hwf : WellFormed headers) (hfresh : header.transactionId ∉ headers)
    {a d : Uuid} (hd : d ≠ header.transactionId) :
    Ancestor (parentsOf (extend headers header)) a d ↔ Ancestor (parentsOf headers) a d :=
  ancestor_congr_fresh (fun _ => parentsOf_extend_ne) (hwf.not_parent hfresh) hd

/-- `a` is one of the recorded parents of `header` or an ancestor of one. -/
def Below (headers : Headers) (parents : List Uuid) (a : Uuid) : Prop :=
  ∃ p ∈ parents, AncestorOrSelf (parentsOf headers) a p

theorem ancestor_extend_self (hwf : WellFormed headers) (hfresh : header.transactionId ∉ headers)
    (hparents : ∀ p ∈ header.parentTransactionIds, p ∈ headers) {a : Uuid} :
    Ancestor (parentsOf (extend headers header)) a header.transactionId ↔
      Below headers header.parentTransactionIds a := by
  rw [ancestor_iff_link,parentsOf_extend_self]
  refine exists_congr fun p => and_congr_right fun hp => ?_
  have hpne : p ≠ header.transactionId := fun he => hfresh (he ▸ hparents p hp)
  unfold AncestorOrSelf
  rw [ancestor_extend_ne hwf hfresh hpne]

theorem fresh_not_ancestor (hwf : WellFormed headers) (hfresh : header.transactionId ∉ headers)
    (hparents : ∀ p ∈ header.parentTransactionIds, p ∈ headers) (d : Uuid) :
    ¬ Ancestor (parentsOf (extend headers header)) header.transactionId d := by
  by_cases hd : d = header.transactionId
  · subst hd
    rw [ancestor_extend_self hwf hfresh hparents]
    rintro ⟨p,hp,rfl | hanc⟩
    · exact hfresh (hparents _ hp)
    · exact hfresh (ancestor_mem hwf hanc)
  · rw [ancestor_extend_ne hwf hfresh hd]
    exact fun hanc => hfresh (ancestor_mem hwf hanc)

theorem WellFormed.extend (hwf : WellFormed headers)
    (hparents : ∀ p ∈ header.parentTransactionIds, p ∈ headers)
    (hvalid : ∀ {stream base}, header.streamBases.get? stream = some base →
      ∃ streamId : StreamId, streamId.value = stream) : WellFormed (extend headers header) where
  keyed {id h'} hget := by
    rw [HashMap.get?_insert] at hget
    split_ifs at hget with hid
    · rw [hid,← Option.some.inj hget]
    · exact hwf.keyed hget
  closed {id p} hp := by
    rw [parentsOf_insert] at hp
    split_ifs at hp with hid
    · exact mem_extend.mpr (.inr (hparents p hp))
    · exact mem_extend.mpr (.inr (hwf.closed hp))
  valid {id h'} hget stream base hbase := by
    rw [HashMap.get?_insert] at hget
    split_ifs at hget with hid
    · exact hvalid (Option.some.inj hget ▸ hbase)
    · exact hwf.valid hget hbase

theorem extending_mem {stream : String} {base : ℕ} {id : Uuid}
    (h : Extending headers stream base id) : id ∈ headers := by
  obtain ⟨_,hget,_⟩ := h
  exact HashMap.mem_of_get? hget

theorem extending_extend (hfresh : header.transactionId ∉ headers) {stream : String} {base : ℕ}
    {id : Uuid} : Extending (extend headers header) stream base id ↔
      (id = header.transactionId ∧ header.streamBases.get? stream = some base) ∨
      Extending headers stream base id := by
  unfold Extending
  rw [HashMap.get?_insert]
  by_cases hid : id = header.transactionId
  · have hnone : headers.get? id = none := HashMap.get?_eq_none_iff.mpr (hid ▸ hfresh)
    simp [hid,hid ▸ hnone]
  · simp [hid]

/-- A fresh transaction turns a group into a fork by joining it, and keeps a fork open exactly
when one of the fork's transactions is neither a parent of it nor below one. -/
theorem forked_extend_iff (hwf : WellFormed headers) (hfresh : header.transactionId ∉ headers)
    (hparents : ∀ p ∈ header.parentTransactionIds, p ∈ headers) {stream : String} {base : ℕ} :
    Forked (extend headers header) stream base ↔
      (header.streamBases.get? stream = some base ∧ ∃ a, Extending headers stream base a) ∨
      (header.streamBases.get? stream ≠ some base ∧ Forked headers stream base ∧
        ∃ a, Extending headers stream base a ∧ ¬ Below headers header.parentTransactionIds a) := by
  have hne : ∀ {a : Uuid}, Extending headers stream base a → a ≠ header.transactionId :=
    fun ha he => hfresh (he ▸ extending_mem ha)
  by_cases hjoin : header.streamBases.get? stream = some base
  · simp only [hjoin,true_and,ne_eq,not_true_eq_false,false_and,or_false]
    constructor
    · rintro ⟨⟨a,b,hab,ha,hb⟩,_⟩
      rw [extending_extend hfresh] at ha hb
      rcases ha with ⟨ha,_⟩ | ha
      · rcases hb with ⟨hb,_⟩ | hb
        · exact absurd (ha.trans hb.symm) hab
        · exact ⟨b,hb⟩
      · exact ⟨a,ha⟩
    · rintro ⟨a,ha⟩
      have hself : Extending (extend headers header) stream base header.transactionId :=
        (extending_extend hfresh).mpr (.inl ⟨rfl,hjoin⟩)
      refine ⟨⟨a,_,hne ha,(extending_extend hfresh).mpr (.inr ha),hself⟩,fun c _ => ?_⟩
      exact ⟨_,hself,fresh_not_ancestor hwf hfresh hparents c⟩
  · have hext : ∀ {a : Uuid}, Extending (extend headers header) stream base a ↔
        Extending headers stream base a := fun {a} => by
      rw [extending_extend hfresh]
      exact or_iff_right fun h => hjoin h.2
    simp only [hjoin,false_and,false_or,ne_eq,not_false_eq_true,true_and]
    unfold Forked
    simp only [hext,mem_extend,forall_eq_or_imp,ancestor_extend_self hwf hfresh hparents]
    constructor
    · rintro ⟨htwo,hself,hall⟩
      refine ⟨⟨htwo,fun c hc => ?_⟩,hself⟩
      obtain ⟨a,ha,hnot⟩ := hall c hc
      exact ⟨a,ha,fun hanc => hnot
        ((ancestor_extend_ne hwf hfresh fun he => hfresh (he ▸ hc)).mpr hanc)⟩
    · rintro ⟨⟨htwo,hall⟩,hself⟩
      refine ⟨htwo,hself,fun c hc => ?_⟩
      obtain ⟨a,ha,hnot⟩ := hall c hc
      exact ⟨a,ha,fun hanc => hnot
        ((ancestor_extend_ne hwf hfresh fun he => hfresh (he ▸ hc)).mp hanc)⟩

theorem replicasChained_extend_iff (hwf : WellFormed headers)
    (hfresh : header.transactionId ∉ headers)
    (hparents : ∀ p ∈ header.parentTransactionIds, p ∈ headers) :
    ReplicasChained (extend headers header) ↔ ReplicasChained headers ∧
      ∀ a ha, headers.get? a = some ha → ha.replicaId = header.replicaId →
        Below headers header.parentTransactionIds a := by
  have hmem : ∀ {a ha}, headers.get? a = some ha → a ≠ header.transactionId := by
    rintro a ha hget rfl
    exact hfresh (HashMap.mem_of_get? hget)
  have hold : ∀ {a ha}, headers.get? a = some ha →
      (extend headers header).get? a = some ha := fun hget => get?_extend hfresh hget
  have hself : (extend headers header).get? header.transactionId = some header :=
    HashMap.get?_insert_self _ _ _
  constructor
  · intro hchain
    refine ⟨?_,?_⟩
    · intro a b ha hb hga hgb hrep hab
      have h := hchain a b ha hb (hold hga) (hold hgb) hrep hab
      rwa [ancestor_extend_ne hwf hfresh (hmem hgb),ancestor_extend_ne hwf hfresh (hmem hga)] at h
    · intro a ha hga hrep
      rcases hchain a _ ha header (hold hga) hself hrep (hmem hga) with h | h
      · exact (ancestor_extend_self hwf hfresh hparents).mp h
      · exact absurd h (fresh_not_ancestor hwf hfresh hparents a)
  · rintro ⟨hchain,hbelow⟩ a b ha hb hga hgb hrep hab
    rw [HashMap.get?_insert] at hga hgb
    split_ifs at hga with ha'
    · split_ifs at hgb with hb'
      · exact absurd (ha'.trans hb'.symm) hab
      · right
        subst ha'
        obtain rfl := Option.some.inj hga
        exact (ancestor_extend_self hwf hfresh hparents).mpr (hbelow b hb hgb hrep.symm)
    · split_ifs at hgb with hb'
      · left
        subst hb'
        obtain rfl := Option.some.inj hgb
        exact (ancestor_extend_self hwf hfresh hparents).mpr (hbelow a ha hga hrep)
      · rw [ancestor_extend_ne hwf hfresh ha',ancestor_extend_ne hwf hfresh hb']
        exact hchain a b ha hb hga hgb hrep hab

end Fresh

end FileStore
end EventCore
