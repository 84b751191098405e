import EventCore.FileMerge

/-! What fork detection leaves out. Transactions that record one base of one stream are one group,
and the whole group is reported until a single transaction descends from all of it: a merge of
some of them hides none. The header map may have dangling parents. -/
namespace EventCore
namespace ForkCompleteness
open FileStore GraphSearch

variable {headers : Headers}

/-- Transaction `id` has a header that records `base` for `stream`. -/
def Records (headers : Headers) (stream : StreamId) (base : StreamVersion) (id : Uuid) : Prop :=
  ∃ key header, headers.get? key = some header ∧ header.transactionId = id ∧
    header.streamBases.get? stream.value = some base

/-- Some transaction descends from every transaction that records the base. -/
def Joined (headers : Headers) (stream : StreamId) (base : StreamVersion) : Prop :=
  ∃ c ∈ headers, ∀ a, Records headers stream base a → Ancestor (parentsOf headers) a c

theorem forkIsResolved_candidatesOf {stream : StreamId} {base : StreamVersion} :
    forkIsResolved (candidatesOf headers stream.value base) headers = true ↔
      Joined headers stream base := by
  rw [forkIsResolved_iff,Joined]
  simp only [mem_candidatesOf_iff,Records]

theorem two_le_candidatesOf {stream : StreamId} {base : StreamVersion} {a b : Uuid} (hne : a ≠ b)
    (ha : Records headers stream base a) (hb : Records headers stream base b) :
    2 ≤ (candidatesOf headers stream.value base).length := by
  have hma := mem_candidatesOf_iff.mpr ha
  have hmb := mem_candidatesOf_iff.mpr hb
  match hc : candidatesOf headers stream.value base with
  | [] => simp [hc] at hma
  | [c] =>
    rw [hc,List.mem_singleton] at hma hmb
    exact absurd (hma.trans hmb.symm) hne
  | _ :: _ :: _ => simp

theorem not_joined {stream : StreamId} {base : StreamVersion} {a b : Uuid}
    (ha : Records headers stream base a) (hb : Records headers stream base b)
    (hapart : ¬ ∃ c ∈ headers, Ancestor (parentsOf headers) a c ∧ Ancestor (parentsOf headers) b c) :
    ¬ Joined headers stream base := by
  rintro ⟨c,hc,hall⟩
  exact hapart ⟨c,hc,hall a ha,hall b hb⟩

def On (stream : StreamId) (base : StreamVersion) (f : Fork) : Prop :=
  f.streamId = stream ∧ f.baseVersion = base

/-- Every group of two or more that nothing descends from is one reported fork, with all of its
transactions. That holds of cyclic maps too, and whether or not one of the two transactions
descends from the other. -/
theorem recorded_base_forks_complete
    (hvalid : ∀ {key header}, headers.get? key = some header →
      ∀ {stream base}, header.streamBases.get? stream = some base →
        ∃ streamId : StreamId, streamId.value = stream)
    (hcheck : checkReplicaCollisions headers = .ok ()) :
    ∃ forks, detectForksIn headers = .ok forks ∧
      ∀ stream base a b, a ≠ b → Records headers stream base a → Records headers stream base b →
        ((¬ ∃ c ∈ headers, Ancestor (parentsOf headers) a c ∧ Ancestor (parentsOf headers) b c) →
          ∃ f ∈ forks, On stream base f ∧ a ∈ f.transactions ∧ b ∈ f.transactions ∧
            (∀ c, c ∈ f.transactions ↔ Records headers stream base c) ∧
            ∀ g ∈ forks, On stream base g → g = f) ∧
        ((∀ f ∈ forks, ¬ On stream base f) → Joined headers stream base) := by
  obtain ⟨forks,hdetect,_,hmem⟩ := detectForksIn_ok hvalid hcheck
  refine ⟨forks,hdetect,fun stream base a b hne ha hb => ?_⟩
  have hlen := two_le_candidatesOf hne ha hb
  let fork : Fork := ⟨stream,base,(candidatesOf headers stream.value base).insertionSort (· ≤ ·)⟩
  have hreported : ¬ Joined headers stream base → fork ∈ forks := by
    intro hnot
    refine (hmem fork).mpr ⟨not_lt.mpr hlen,Bool.eq_false_iff.mpr fun hres => ?_,rfl⟩
    exact hnot (forkIsResolved_candidatesOf.mp hres)
  have hall : ∀ c, c ∈ fork.transactions ↔ Records headers stream base c :=
    fun c => (List.mem_insertionSort _).trans mem_candidatesOf_iff
  refine ⟨fun hapart => ?_,fun hnone => ?_⟩
  · refine ⟨fork,hreported (not_joined ha hb hapart),⟨rfl,rfl⟩,(hall a).mpr ha,(hall b).mpr hb,
      hall,?_⟩
    rintro ⟨_,_,transactions⟩ hg ⟨rfl,rfl⟩
    obtain ⟨_,_,htransactions⟩ := (hmem _).mp hg
    exact congrArg (Fork.mk _ _) htransactions
  · by_contra hnot
    exact hnone fork (hreported hnot) ⟨rfl,rfl⟩

section Partial

def account1 : StreamId := Sample.account

def account2 : StreamId := Sample.savings

def header (id replica : Uuid) (parents : List Uuid) (bases : HashMap String ℕ) :
    TransactionHeader := ⟨id,replica,parents,"2026-01-01T00:00:00Z",bases⟩

/-- Three replicas extend the first account and two of them the second one; the fourth transaction
merges the first two. -/
def partlyMerged : Headers :=
  let first := AList.insert account1.value 0 ∅
  let both := AList.insert account2.value 0 first
  AList.insert 4 (header 4 1 [1,2] ∅) (AList.insert 3 (header 3 3 [] first)
    (AList.insert 2 (header 2 2 [] both) (AList.insert 1 (header 1 1 [] both) ∅)))

theorem partlyMerged_streams : ∀ p ∈ partlyMerged.entries, ∀ q ∈ p.2.streamBases.entries,
    q.1 = account1.value ∨ q.1 = account2.value := by
  decide +kernel

/-- The merge resolves the second account and hides none of the first one's three transactions. -/
theorem recorded_base_forks_complete_partial :
    ∃ forks, detectForksIn partlyMerged = .ok forks ∧
      (∃ f ∈ forks, On account1 0 f ∧ ∀ c, c ∈ f.transactions ↔ Records partlyMerged account1 0 c) ∧
      ((∀ f ∈ forks, ¬ On account2 0 f) → Joined partlyMerged account2 0) := by
  have hvalid : ∀ {key header}, partlyMerged.get? key = some header →
      ∀ {stream base}, header.streamBases.get? stream = some base →
        ∃ streamId : StreamId, streamId.value = stream := by
    intro key header hget stream base hbase
    rcases partlyMerged_streams _ (HashMap.mem_entries_iff.mpr hget) _
      (HashMap.mem_entries_iff.mpr hbase) with h | h
    · exact ⟨account1,h.symm⟩
    · exact ⟨account2,h.symm⟩
  obtain ⟨forks,hdetect,hforks⟩ := recorded_base_forks_complete hvalid (by decide +kernel)
  have hfirst : Records partlyMerged account1 0 1 := ⟨1,_,rfl,rfl,rfl⟩
  have hthird : Records partlyMerged account1 0 3 := ⟨3,_,rfl,rfl,rfl⟩
  have hapart : ¬ ∃ c ∈ partlyMerged, Ancestor (parentsOf partlyMerged) 1 c ∧
      Ancestor (parentsOf partlyMerged) 3 c := by
    simp only [← isAncestor_iff]
    decide +kernel
  obtain ⟨f,hf,hon,_,_,hall,_⟩ := (hforks account1 0 1 3 (by decide) hfirst hthird).1 hapart
  exact ⟨forks,hdetect,⟨f,hf,hon,hall⟩,
    (hforks account2 0 1 2 (by decide) ⟨1,_,rfl,rfl,rfl⟩ ⟨2,_,rfl,rfl,rfl⟩).2⟩

end Partial

end ForkCompleteness
end EventCore
