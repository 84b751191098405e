import EventCore.AppendCancellation

/-! The file store of a single writer. Its files form a chain, so that opening it again reads the
streams back as they were, numbered from one on. -/
namespace EventCore
namespace FileStore
open AppendCancellation

variable {Any Raw Value : Type}

section Envelopes

theorem buildEnvelopes_versions (index : Index Value) (eventId : ℕ → Uuid)
    (items : List (String × String × Value)) (s : String) :
    (((buildEnvelopes index eventId items).filter fun e => e.streamId = s).map
      EventEnvelope.streamVersion) =
      List.range' (index.streamHead s + 1)
        ((buildEnvelopes index eventId items).filter fun e => e.streamId = s).length := by
  have hgen : ∀ (items : List (String × String × Value)) (added : HashMap String ℕ) (drawn : ℕ),
      (((buildEnvelopes.go index eventId added drawn items).filter fun e => e.streamId = s).map
        EventEnvelope.streamVersion) =
        List.range' (index.streamHead s + (added.get? s).getD 0 + 1)
          ((buildEnvelopes.go index eventId added drawn items).filter
            fun e => e.streamId = s).length := by
    intro items
    induction items with
    | nil => exact fun _ _ => rfl
    | cons item items ih =>
      intro added drawn
      obtain ⟨key,eventType,eventData⟩ := item
      have hrest := ih (added.insert key ((added.get? key).getD 0 + 1)) (drawn+1)
      rw [HashMap.get?_insert] at hrest
      rw [buildEnvelopes.go]
      by_cases hs : key = s
      · subst hs
        rw [if_pos rfl,Option.getD_some] at hrest
        rw [List.filter_cons,if_pos (decide_eq_true rfl),List.map_cons,hrest,List.length_cons,
          List.range'_succ]
        rfl
      · rw [if_neg (Ne.symm hs)] at hrest
        rw [List.filter_cons,if_neg (by simpa using hs)]
        exact hrest
  have h := hgen items ∅ 0
  rwa [HashMap.get?_empty,Option.getD_none,Nat.add_zero] at h

end Envelopes

def envelopesOf (ts : List (Transaction Value)) (s : String) : List (EventEnvelope Value) :=
  (ts.flatMap Transaction.events).filter fun e => e.streamId = s

theorem envelopesOf_concat (ts : List (Transaction Value)) (t : Transaction Value) (s : String) :
    envelopesOf (ts ++ [t]) s = envelopesOf ts s ++ t.events.filter fun e => e.streamId = s := by
  simp [envelopesOf]

theorem filter_indexed (events : List (EventEnvelope Value)) (s : String) :
    (events.map EventEnvelope.indexed).filter (fun e => e.streamId = s) =
      (events.filter fun e => e.streamId = s).map EventEnvelope.indexed := by
  rw [List.filter_map]
  rfl

structure SingleWriter (store : FileEventStore Value) : Prop where
  grown : Grown store.files
  reflects : Reflects store.index store.files
  streams : ∀ s, store.index.streamEvents s = (envelopesOf store.files s).map EventEnvelope.indexed
  versions : ∀ s, (envelopesOf store.files s).map EventEnvelope.streamVersion =
    List.range' 1 (envelopesOf store.files s).length

variable {store : FileEventStore Value}

theorem SingleWriter.reopen (h : SingleWriter store) : SingleWriter store.reopen := by
  refine ⟨h.grown,reflects_scan h.grown store.ingestionLog,fun s => ?_,h.versions⟩
  have hscan : store.reopen.index.streamEvents s =
      (canonicalEvents store.files).filter fun e => e.streamId = s :=
    scanIndex_streamEvents store.files store.ingestionLog s
  rw [hscan,canonicalEvents_chain h.grown.isChain h.grown.nodup,List.filter_flatMap,reopen_files,
    envelopesOf,List.filter_flatMap,List.map_flatMap]
  simp only [filter_indexed]

theorem singleWriter_create (replicaId : Uuid) :
    SingleWriter (.create replicaId : FileEventStore Value) := by
  have hgrown : Grown ([] : List (Transaction Value)) := by
    intro before t after hsplit
    simp at hsplit
  exact ⟨hgrown,reflects_scan hgrown [],fun _ => rfl,fun _ => rfl⟩

/-- An append fails on a conflict or on a text that is no JSON value, and else adds its events at
the end of their streams, numbered on from what is there. -/
theorem SingleWriter.appendEvents (h : SingleWriter store) (parse : Raw → Option Value)
    {stamp : Stamp} {writes : StreamWrites Any Raw}
    (hfresh : stamp.transactionId ∉ store.files.map Transaction.id) :
    SingleWriter (appendEvents parse store stamp writes).2 := by
  rcases appendEvents_store parse store stamp writes with hrun | ⟨t,hprep,hrun⟩
  · rw [hrun]
    exact h
  · rw [hrun]
    obtain ⟨items,_,hevents⟩ := prepareAppend_events hprep
    have hfollows := follows_of_prepare parse h.reflects hprep hfresh
    refine ⟨h.grown.append hfollows,h.reflects.ingest,fun s => ?_,fun s => ?_⟩
    · change (store.commit t fun _ => [t.id]).index.streamEvents s = _
      rw [commit_streamEvents,h.streams s,commit_files,envelopesOf_concat,List.map_append,
        filter_indexed]
    · have hhead : store.index.streamHead s = (envelopesOf store.files s).length := by
        rw [Index.streamHead,h.streams s,List.length_map]
      have hadded := buildEnvelopes_versions store.index stamp.eventId items s
      rw [← hevents,hhead] at hadded
      rw [commit_files,envelopesOf_concat,List.map_append,h.versions s,hadded,List.length_append,
        ← List.range'_append_1,Nat.add_comm 1]

end FileStore
end EventCore
