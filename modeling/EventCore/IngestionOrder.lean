import EventCore.FileStore

/-! The local ingestion view of a file store. No sequence number is given twice, so the positions
that readers page by ascend after every append, merge and reopen. -/
namespace EventCore
namespace FileStore

variable {Any Raw Value E : Type}

/-- No two events have one sequence number, and the next one is above all of them. -/
structure IngestionLog.Valid (log : IngestionLog) : Prop where
  injective : ∀ {a b seq}, log.seqOf a = some seq → log.seqOf b = some seq → a = b
  bounded : ∀ {a seq}, log.seqOf a = some seq → seq < log.nextSeq

/-- The persisted lines and the positions ascend, below what is given next. -/
structure Ordered (lines : List (Uuid × ℕ)) (index : Index Value) : Prop where
  ascending : lines.Pairwise fun p q => p.2 < q.2
  bounded : ∀ line ∈ lines, line.2 < index.log.nextSeq
  positions : index.byIngestion.Pairwise fun p q => p.1 < q.1
  below : ∀ p ∈ index.byIngestion, p.1 < positionFromSeq index.log.nextSeq

section Append

theorem Ordered.ingestAppended {lines : List (Uuid × ℕ)} {index : Index Value}
    (h : Ordered lines index) (indexed : IndexedEvent Value) :
    Ordered (lines ++ [(index.ingestAppended indexed).2]) (index.ingestAppended indexed).1 := by
  have hnext : positionFromSeq index.log.nextSeq < positionFromSeq (index.log.nextSeq+1) :=
    positionFromSeq_strictMono (Nat.lt_succ_self _)
  refine ⟨List.pairwise_append.mpr ⟨h.ascending,List.pairwise_singleton _ _,?_⟩,?_,
    List.pairwise_append.mpr ⟨h.positions,List.pairwise_singleton _ _,?_⟩,?_⟩
  · intro line hline last hlast
    rw [List.mem_singleton.mp hlast]
    exact h.bounded line hline
  · intro line hline
    rcases List.mem_append.mp hline with hline | hline
    · exact (h.bounded line hline).trans (Nat.lt_succ_self _)
    · rw [List.mem_singleton.mp hline]
      exact Nat.lt_succ_self _
  · intro p hp last hlast
    rw [List.mem_singleton.mp hlast]
    exact h.below p hp
  · intro p hp
    rcases List.mem_append.mp hp with hp | hp
    · exact (h.below p hp).trans hnext
    · rw [List.mem_singleton.mp hp]
      exact hnext

theorem Ordered.ingestAll {lines : List (Uuid × ℕ)} {index : Index Value}
    (h : Ordered lines index) (events : List (IndexedEvent Value)) :
    Ordered (lines ++ (index.ingestAll events).2) (index.ingestAll events).1 := by
  induction events generalizing lines index with
  | nil => simpa [Index.ingestAll] using h
  | cons indexed events ih =>
    have hrest := ih (h.ingestAppended indexed)
    rw [List.append_assoc] at hrest
    exact hrest

theorem Ordered.commit {store : FileEventStore Value}
    (h : Ordered store.ingestionLog store.index) (t : Transaction Value)
    (tips : Headers → List Uuid) :
    Ordered (store.commit t tips).ingestionLog (store.commit t tips).index := by
  have hheaders : Ordered store.ingestionLog
      { store.index with headers := store.index.headers.insert t.id t.header } :=
    ⟨h.ascending,h.bounded,h.positions,h.below⟩
  obtain ⟨hlines,hbounded,hpositions,hbelow⟩ :=
    hheaders.ingestAll (t.events.map EventEnvelope.indexed)
  exact ⟨hlines,hbounded,hpositions,hbelow⟩

end Append

section Rebuild

theorem load_seqOf {lines : List (Uuid × ℕ)} {eventId : Uuid} {seq : ℕ}
    (h : (IngestionLog.load lines).seqOf eventId = some seq) : (eventId,seq) ∈ lines := by
  have hgen : ∀ (lines : List (Uuid × ℕ)) (seqByEvent : HashMap Uuid ℕ),
      (lines.foldl (fun seqByEvent line => seqByEvent.insert line.1 line.2) seqByEvent).get?
        eventId = some seq → (eventId,seq) ∈ lines ∨ seqByEvent.get? eventId = some seq := by
    intro lines
    induction lines with
    | nil => exact fun _ h => .inr h
    | cons line lines ih =>
      intro seqByEvent hget
      rcases ih _ hget with hmem | hget
      · exact .inl (List.mem_cons_of_mem _ hmem)
      · rw [HashMap.get?_insert] at hget
        split_ifs at hget with heq
        · left
          rw [heq,← Option.some.inj hget]
          exact List.mem_cons_self
        · exact .inr hget
  simpa using hgen lines ∅ h

theorem le_foldl_max {lines : List (Uuid × ℕ)} {line : Uuid × ℕ} (h : line ∈ lines) :
    line.2 ≤ lines.foldl (fun maxSeq line => max maxSeq line.2) 0 := by
  have hgen : ∀ (lines : List (Uuid × ℕ)) (maxSeq : ℕ), line ∈ lines ∨ line.2 ≤ maxSeq →
      line.2 ≤ lines.foldl (fun maxSeq line => max maxSeq line.2) maxSeq := by
    intro lines
    induction lines with
    | nil => simp
    | cons first lines ih =>
      intro maxSeq hline
      refine ih _ ?_
      rcases hline with hline | hle
      · rcases List.mem_cons.mp hline with rfl | hline
        · exact .inr (le_max_right _ _)
        · exact .inl hline
      · exact .inr (hle.trans (le_max_left _ _))
  exact hgen lines 0 (.inl h)

theorem lt_nextSeq_load {lines : List (Uuid × ℕ)} {line : Uuid × ℕ} (h : line ∈ lines) :
    line.2 < (IngestionLog.load lines).nextSeq := Nat.lt_succ_of_le (le_foldl_max h)

/-- Ascending lines read back into a log without repeated sequence numbers. -/
theorem load_valid {lines : List (Uuid × ℕ)} (h : lines.Pairwise fun p q => p.2 < q.2) :
    (IngestionLog.load lines).Valid where
  injective {a b seq} ha hb := by
    have hnodup : (lines.map Prod.snd).Nodup := List.pairwise_map.mpr (h.imp fun hlt => hlt.ne)
    have hsame := List.inj_on_of_nodup_map hnodup (load_seqOf ha) (load_seqOf hb) rfl
    exact congrArg Prod.fst hsame
  bounded ha := lt_nextSeq_load (load_seqOf ha)

/-- The walk has placed `events`, each at its sequence number. -/
structure Walked (lines : List (Uuid × ℕ)) (events : List (IndexedEvent Value))
    (walk : Walk Value) : Prop where
  valid : walk.log.Valid
  ascending : (lines ++ walk.newEntries).Pairwise fun p q => p.2 < q.2
  bounded : ∀ line ∈ lines ++ walk.newEntries, line.2 < walk.log.nextSeq
  visited : walk.positioned.map Prod.snd = events
  placed : ∀ p ∈ walk.positioned,
    ∃ seq, walk.log.seqOf p.2.eventId = some seq ∧ p.1 = positionFromSeq seq

theorem Walked.visit {lines : List (Uuid × ℕ)} {events : List (IndexedEvent Value)}
    {walk : Walk Value} (h : Walked lines events walk) (indexed : IndexedEvent Value) :
    Walked lines (events ++ [indexed]) (walk.visit indexed) := by
  unfold Walk.visit
  cases hseq : walk.log.seqOf indexed.eventId with
  | some seq =>
    refine ⟨h.valid,h.ascending,h.bounded,by simp [h.visited],fun p hp => ?_⟩
    rcases List.mem_append.mp hp with hp | hp
    · exact h.placed p hp
    · rw [List.mem_singleton.mp hp]
      exact ⟨seq,hseq,rfl⟩
  | none =>
    have hget : ∀ id, (walk.log.allocate indexed.eventId).1.seqOf id =
        if id = indexed.eventId then some walk.log.nextSeq else walk.log.seqOf id :=
      fun id => HashMap.get?_insert _ _ _ _
    refine ⟨⟨?_,?_⟩,?_,?_,by simp [h.visited],?_⟩
    · intro a b seq ha hb
      rw [hget] at ha hb
      split_ifs at ha hb with haid hbid hbid
      · exact haid.trans hbid.symm
      · have := h.valid.bounded hb
        have := Option.some.inj ha
        omega
      · have := h.valid.bounded ha
        have := Option.some.inj hb
        omega
      · exact h.valid.injective ha hb
    · intro a seq ha
      rw [hget] at ha
      split_ifs at ha
      · rw [← Option.some.inj ha]
        exact Nat.lt_succ_self _
      · exact (h.valid.bounded ha).trans (Nat.lt_succ_self _)
    · rw [← List.append_assoc]
      refine List.pairwise_append.mpr ⟨h.ascending,List.pairwise_singleton _ _,?_⟩
      intro line hline last hlast
      rw [List.mem_singleton.mp hlast]
      exact h.bounded line hline
    · intro line hline
      rw [← List.append_assoc] at hline
      rcases List.mem_append.mp hline with hline | hline
      · exact (h.bounded line hline).trans (Nat.lt_succ_self _)
      · rw [List.mem_singleton.mp hline]
        exact Nat.lt_succ_self _
    · intro p hp
      rcases List.mem_append.mp hp with hp | hp
      · obtain ⟨seq,hp,hpos⟩ := h.placed p hp
        refine ⟨seq,?_,hpos⟩
        rw [hget,if_neg fun he => ?_]
        · exact hp
        · rw [he,hseq] at hp
          cases hp
      · rw [List.mem_singleton.mp hp]
        exact ⟨walk.log.nextSeq,by rw [hget,if_pos rfl],rfl⟩

theorem Walked.foldl {lines : List (Uuid × ℕ)} (events : List (IndexedEvent Value))
    {before : List (IndexedEvent Value)} {walk : Walk Value} (h : Walked lines before walk) :
    Walked lines (before ++ events) (events.foldl Walk.visit walk) := by
  induction events generalizing before walk with
  | nil => simpa using h
  | cons indexed events ih =>
    have hrest := ih (h.visit indexed)
    rw [List.append_assoc] at hrest
    exact hrest

theorem walked_canonicalEvents (ts : List (Transaction Value)) {lines : List (Uuid × ℕ)}
    (hlines : lines.Pairwise fun p q => p.2 < q.2) :
    Walked lines (canonicalEvents ts)
      ((canonicalEvents ts).foldl Walk.visit ⟨∅,[],IngestionLog.load lines,[]⟩) := by
  have hstart : Walked lines [] (⟨∅,[],IngestionLog.load lines,[]⟩ : Walk Value) :=
    ⟨load_valid hlines,by simpa using hlines,fun line hline =>
      lt_nextSeq_load (by simpa using hline),rfl,by simp⟩
  exact hstart.foldl (canonicalEvents ts)

theorem ordered_scanIndex {ts : List (Transaction Value)} {lines : List (Uuid × ℕ)}
    (hlines : lines.Pairwise fun p q => p.2 < q.2)
    (hids : ((canonicalEvents ts).map IndexedEvent.eventId).Nodup) :
    Ordered (scanIndex ts lines).2 (scanIndex ts lines).1 := by
  obtain ⟨hvalid,hlines',hbounded,hevents,hplaced⟩ := walked_canonicalEvents ts hlines
  let walk := (canonicalEvents ts).foldl Walk.visit ⟨∅,[],IngestionLog.load lines,[]⟩
  have hnodup : (walk.positioned.map Prod.fst).Nodup := by
    rw [← hevents,List.map_map] at hids
    refine List.pairwise_map.mpr ((List.pairwise_map.mp hids).imp_of_mem ?_)
    intro p q hp hq hne heq
    obtain ⟨seq,hpseq,hppos⟩ := hplaced p hp
    obtain ⟨seq',hqseq,hqpos⟩ := hplaced q hq
    have hsame : seq = seq' :=
      positionFromSeq_strictMono.injective (hppos.symm.trans (heq.trans hqpos))
    exact hne (hvalid.injective hpseq (hsame ▸ hqseq))
  refine ⟨hlines',hbounded,Grouping.pairwise_lt_sortBy hnodup,fun p hp => ?_⟩
  obtain ⟨seq,hseq,hpos⟩ := hplaced p ((List.mem_insertionSort _).mp hp)
  rw [hpos]
  exact positionFromSeq_strictMono (hvalid.bounded hseq)

theorem canonicalEvents_perm {ts : List (Transaction Value)} (hnodup : (ts.map Transaction.id).Nodup) :
    (canonicalEvents ts).Perm (ts.flatMap fun t => t.events.map EventEnvelope.indexed) := by
  have hkeys : (linearize (headersOf ts)).Perm (ts.map Transaction.id) :=
    (List.perm_insertionSort _ _).trans (keys_perm hnodup)
  refine (hkeys.flatMap_right _).trans (List.Perm.of_eq ?_)
  rw [List.flatMap_map]
  refine List.flatMap_congr fun t ht => ?_
  rw [eventsByTxn_get? hnodup ht,Option.getD_some]

end Rebuild

end FileStore
end EventCore
