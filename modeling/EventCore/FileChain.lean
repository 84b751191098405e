import EventCore.FileStore
import EventCore.FreshTransaction

/-! A directory whose transactions form one chain: its linearization is the chain itself, its
only tip is the last transaction, and no two of its transactions are concurrent. -/
namespace EventCore
namespace FileStore
open GraphSearch

variable {Value : Type}

/-- Every transaction has exactly the one before it as parent. -/
def IsChain : Option Uuid → List (Transaction Value) → Prop
  | _, [] => True
  | last, t :: ts => t.header.parentTransactionIds = last.toList ∧ IsChain (some t.id) ts

def lastId (ts : List (Transaction Value)) : Option Uuid := ts.getLast?.map Transaction.id

@[simp] theorem lastId_append_singleton (ts : List (Transaction Value)) (t : Transaction Value) :
    lastId (ts ++ [t]) = some t.id := by simp [lastId]

theorem isChain_append {last : Option Uuid} {ts us : List (Transaction Value)} :
    IsChain last (ts ++ us) ↔ IsChain last ts ∧ IsChain ((lastId ts).or last) us := by
  induction ts generalizing last with
  | nil => simp [IsChain,lastId]
  | cons t ts ih =>
    have hlast : ((lastId ts).or (some t.id)) = (lastId (t :: ts)).or last := by
      cases hts : ts.getLast? with
      | none => simp [lastId,List.getLast?_eq_none_iff.mp hts]
      | some u => simp [lastId,hts,List.getLast?_cons]
    simp only [List.cons_append,IsChain,ih,and_assoc]
    rw [← hlast]

def countEvents (ts : List (Transaction Value)) (stream : String) : ℕ :=
  (ts.flatMap fun t => t.events.filter fun e => e.streamId = stream).length

theorem countEvents_append (ts us : List (Transaction Value)) (stream : String) :
    countEvents (ts ++ us) stream = countEvents ts stream + countEvents us stream := by
  simp [countEvents]

section Chain

variable {ts : List (Transaction Value)} (hchain : IsChain none ts)
  (hnodup : (ts.map Transaction.id).Nodup)
include hchain hnodup

/-- Parents of the transaction after `before`. -/
theorem parentsOf_chain {before after : List (Transaction Value)} {t : Transaction Value}
    (hsplit : ts = before ++ t :: after) :
    parentsOf (headersOf ts) t.id = (lastId before).toList := by
  have hmem : t ∈ ts := by simp [hsplit]
  rw [parentsOf,(headersOf_get? hnodup).mpr ⟨t,hmem,rfl,rfl⟩]
  rw [hsplit,isChain_append] at hchain
  simpa using hchain.2.1

theorem ancestor_chain {before after : List (Transaction Value)} {t u : Transaction Value}
    (hsplit : ts = before ++ t :: after) (hu : u ∈ before) :
    Ancestor (parentsOf (headersOf ts)) u.id t.id := by
  induction before using List.reverseRecOn generalizing t after with
  | nil => simp at hu
  | append_singleton before v ih =>
    have hlink : Ancestor (parentsOf (headersOf ts)) v.id t.id := by
      refine .link ?_
      rw [parentsOf_chain hchain hnodup hsplit]
      simp
    rcases List.mem_append.mp hu with hu | hu
    · have hsplit' : ts = before ++ v :: (t :: after) := by simp [hsplit]
      exact (ih hsplit' hu).trans hlink
    · obtain rfl := List.mem_singleton.mp hu
      exact hlink

theorem chain_cases {a b : Transaction Value} (ha : a ∈ ts) (hb : b ∈ ts) (hne : a.id ≠ b.id) :
    Ancestor (parentsOf (headersOf ts)) a.id b.id ∨
    Ancestor (parentsOf (headersOf ts)) b.id a.id := by
  obtain ⟨before,after,hsplit⟩ := List.append_of_mem hb
  rw [hsplit] at ha
  rcases List.mem_append.mp ha with ha | ha
  · exact .inl (ancestor_chain hchain hnodup hsplit ha)
  · rcases List.mem_cons.mp ha with rfl | ha
    · exact absurd rfl hne
    · obtain ⟨mid,rest,rfl⟩ := List.append_of_mem ha
      have hsplit' : ts = (before ++ b :: mid) ++ a :: rest := by simp [hsplit]
      exact .inr (ancestor_chain hchain hnodup hsplit' (by simp))

theorem replicasChained_chain : ReplicasChained (headersOf ts) := by
  intro a b ha hb hga hgb _ hne
  obtain ⟨t,ht,rfl,_⟩ := (headersOf_get? hnodup).mp hga
  obtain ⟨u,hu,rfl,_⟩ := (headersOf_get? hnodup).mp hgb
  exact chain_cases hchain hnodup ht hu hne

theorem wellFormed_chain (hvalid : ∀ t ∈ ts, ∀ {stream base},
    t.header.streamBases.get? stream = some base → ∃ streamId : StreamId, streamId.value = stream) :
    WellFormed (headersOf ts) where
  keyed hget := by
    obtain ⟨t,_,hid,rfl⟩ := (headersOf_get? hnodup).mp hget
    exact hid
  closed {id parent} hp := by
    obtain ⟨t,ht,rfl⟩ := (mem_headersOf hnodup).mp (mem_of_parentsOf hp)
    obtain ⟨before,after,hsplit⟩ := List.append_of_mem ht
    rw [parentsOf_chain hchain hnodup hsplit] at hp
    have hlast : lastId before = some parent := by simpa using hp
    obtain ⟨u,hu,rfl⟩ := Option.map_eq_some_iff.mp hlast
    exact (mem_headersOf hnodup).mpr ⟨u,by simp [hsplit,List.mem_of_getLast? hu],rfl⟩
  valid {id header} hget stream base hbase := by
    obtain ⟨t,ht,_,rfl⟩ := (headersOf_get? hnodup).mp hget
    exact hvalid t ht hbase

theorem computeTips_chain : computeTips (headersOf ts) = (lastId ts).toList := by
  have hiff : ∀ id, id ∈ computeTips (headersOf ts) ↔ id ∈ (lastId ts).toList := by
    intro id
    rw [mem_computeTips,mem_headersOf hnodup]
    constructor
    · rintro ⟨⟨t,ht,rfl⟩,hnone⟩
      obtain ⟨before,after,hsplit⟩ := List.append_of_mem ht
      cases after with
      | nil => simp [hsplit]
      | cons u after =>
        have hsplit' : ts = (before ++ [t]) ++ u :: after := by simp [hsplit]
        have hpar := parentsOf_chain hchain hnodup hsplit'
        exact absurd (by rw [hpar]; simp) (hnone u.id)
    · intro hid
      obtain ⟨t,hlast,rfl⟩ := Option.map_eq_some_iff.mp (Option.mem_toList.mp hid)
      obtain ⟨before,hsplit⟩ := List.getLast?_eq_some_iff.mp hlast
      refine ⟨⟨t,List.mem_of_getLast? hlast,rfl⟩,fun x hx => ?_⟩
      obtain ⟨u,hu,rfl⟩ := (mem_headersOf hnodup).mp (mem_of_parentsOf hx)
      obtain ⟨front,back,hsplit'⟩ := List.append_of_mem hu
      rw [parentsOf_chain hchain hnodup hsplit'] at hx
      obtain ⟨v,hv,hvt⟩ := Option.map_eq_some_iff.mp (Option.mem_toList.mp hx)
      -- the last transaction would stand before `u`, so its id would occur twice
      have hfront : t.id ∈ front.map Transaction.id :=
        List.mem_map.mpr ⟨v,List.mem_of_getLast? hv,hvt⟩
      have htail : (u :: back).getLast? = some t := by
        rw [hsplit',List.getLast?_append] at hlast
        cases h : (u :: back).getLast? with
        | none => simp at h
        | some w => simpa [h] using hlast
      have hback : t.id ∈ (u :: back).map Transaction.id :=
        List.mem_map_of_mem (List.mem_of_getLast? htail)
      rw [hsplit',List.map_append] at hnodup
      exact (List.nodup_append.mp hnodup).2.2 _ hfront _ hback rfl
  have hperm : (computeTips (headersOf ts)).Perm (lastId ts).toList := by
    refine (List.perm_ext_iff_of_nodup ?_ ?_).mpr hiff
    · exact (List.perm_insertionSort _ _).nodup_iff.mpr ((headersOf ts).nodupKeys.filter _)
    · cases lastId ts <;> simp
  cases hlast : lastId ts with
  | none => exact List.perm_nil.mp (by simpa [hlast] using hperm)
  | some id => exact List.perm_singleton.mp (by simpa [hlast] using hperm)

theorem transactionDepth_chain {before after : List (Transaction Value)} {t : Transaction Value}
    (hsplit : ts = before ++ t :: after) {fuel : ℕ} (hfuel : before.length < fuel) :
    transactionDepth (headersOf ts) fuel t.id = before.length := by
  induction before using List.reverseRecOn generalizing t after fuel with
  | nil =>
    obtain ⟨fuel,rfl⟩ := Nat.exists_eq_succ_of_ne_zero (Nat.ne_of_gt hfuel)
    rw [transactionDepth,parentsOf_chain hchain hnodup hsplit]
    rfl
  | append_singleton before v ih =>
    obtain ⟨fuel,rfl⟩ := Nat.exists_eq_succ_of_ne_zero (Nat.ne_zero_of_lt hfuel)
    have hsplit' : ts = before ++ v :: (t :: after) := by simp [hsplit]
    have hv : v.id ∈ headersOf ts := (mem_headersOf hnodup).mpr ⟨v,by simp [hsplit],rfl⟩
    have hfuel' : before.length < fuel := by simpa using hfuel
    have hdepth := ih hsplit' hfuel'
    rw [transactionDepth,parentsOf_chain hchain hnodup hsplit]
    simp [hv,hdepth]

theorem linearize_chain : linearize (headersOf ts) = ts.map Transaction.id := by
  have hlen : (headersOf ts).keys.length = ts.length := by
    rw [(keys_perm hnodup).length_eq,List.length_map]
  refine Grouping.sortBy_eq (keys_perm hnodup).symm ?_
  rw [List.pairwise_map,List.pairwise_iff_getElem]
  intro i j hi hj hij
  have hkey : ∀ k (hk : k < ts.length), ∃ rest, linearKey (headersOf ts) ts[k].id = toLex (k,rest) := by
    intro k hk
    have hsplit : ts = ts.take k ++ ts[k] :: ts.drop (k+1) := by
      rw [List.getElem_cons_drop,List.take_append_drop]
    have hlength : (ts.take k).length = k := List.length_take_of_le hk.le
    have hdepth := transactionDepth_chain hchain hnodup hsplit (hlength.trans_lt (hlen ▸ hk))
    rw [linearKey,(headersOf_get? hnodup).mpr ⟨ts[k],List.getElem_mem hk,rfl,rfl⟩]
    exact ⟨_,by rw [hdepth,hlength]⟩
  obtain ⟨_,hki⟩ := hkey i hi
  obtain ⟨_,hkj⟩ := hkey j hj
  rw [hki,hkj]
  exact Prod.Lex.toLex_lt_toLex.mpr (.inl hij)

theorem canonicalEvents_chain :
    canonicalEvents ts = ts.flatMap fun t => t.events.map EventEnvelope.indexed := by
  rw [canonicalEvents,linearize_chain hchain hnodup,List.flatMap_map]
  refine List.flatMap_congr fun t ht => ?_
  rw [eventsByTxn_get? hnodup ht,Option.getD_some]

end Chain

end FileStore
end EventCore
