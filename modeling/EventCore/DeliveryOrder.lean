import EventCore.DeliveryFrontier
import EventCore.PostgresStore

/-! In which order the events of a stream are delivered: the backfill goes by version, so does every
statement of an append, and later statements and later commits carry larger versions. -/
namespace EventCore
namespace DeliveryOrder
open Runs SerdeJson SqliteStore PostgresStore DeliveryFrontier

variable {Any Raw κ : Type} [LinearOrder κ] (collation : String → κ)

def Before (a b : Row Raw) : Prop := a.streamId = b.streamId → a.streamVersion < b.streamVersion

instance (a b : Row Raw) : Decidable (Before a b) := inferInstanceAs (Decidable (_ → _))

def Distinct (a b : Row Raw) : Prop := a.streamId = b.streamId → a.streamVersion ≠ b.streamVersion

instance (a b : Row Raw) : Decidable (Distinct a b) := inferInstanceAs (Decidable (_ → _))

/-- Of two events of a stream the one with the smaller version has the smaller position, and every
event has one position. -/
structure InOrder (tables : Tables Raw) : Prop where
  positions : ∀ a ∈ tables.events, ∀ b ∈ tables.events, a.streamId = b.streamId →
    a.streamVersion < b.streamVersion →
    ∀ d ∈ tables.delivery, ∀ d' ∈ tables.delivery, d.eventId = a.eventId → d'.eventId = b.eventId →
      d.deliveryPosition < d'.deliveryPosition
  unique : ∀ a ∈ tables.events, ∃! d, d ∈ tables.delivery ∧ d.eventId = a.eventId

/-- The tables with the open transactions, and the session setting of each of these. -/
structure World where
  tables : DeliveryFrontier.World Text := {}
  expectedVersions : TransactionId → HashMap String ℕ := fun _ => ∅
  drawn : ℕ := 0

inductive Label (Any : Type)
  | begin (i : TransactionId)
  | setConfig (i : TransactionId) (expectedVersions : HashMap String ℕ)
  | insertEvents (i : TransactionId) (chunk : List (StreamWriteEntry Any Text))
  | trigger (i : TransactionId)
  | commit (i : TransactionId)
  | rollback (i : TransactionId)

namespace World

variable (accepts : Text → Bool) (nowV7 : ℕ → Uuid)

/-- A row of another open transaction with the same stream and version makes a row wait. -/
def contended (w : World) (i : TransactionId) (rows : Table Text) : Bool :=
  w.tables.transactions.entries.any fun p => p.1 ≠ i && rows.any (violatesUnique p.2.events)

/-- One `INSERT`: the version trigger numbers row after row, with what is committed and what its own
transaction has inserted before in view. -/
def insertEvents (w : World) (i : TransactionId) (chunk : List (StreamWriteEntry Any Text)) :
    Option World :=
  (w.tables.transactions.get? i).bind fun t =>
    let table := w.tables.committed.events ++ t.events
    match chunk.foldlM (insertRow accepts nowV7) ⟨table,w.expectedVersions i,w.drawn⟩ with
    | .error _ => none
    | .ok insertion =>
      let rows := insertion.table.drop table.length
      if w.contended i rows then none
      else (w.tables.step collation (.insertEvents i rows)).map fun tables =>
        ⟨tables,Function.update w.expectedVersions i insertion.expectedVersions,insertion.drawn⟩

/-- A statement that fails leaves a transaction that is rolled back. -/
def step (w : World) : Label Any → Option World
  | .begin i => (w.tables.step collation (.begin i)).map fun tables =>
    { w with tables, expectedVersions := Function.update w.expectedVersions i ∅ }
  | .setConfig i expectedVersions => (w.tables.transactions.get? i).map fun _ =>
    { w with expectedVersions := Function.update w.expectedVersions i expectedVersions }
  | .insertEvents i chunk => w.insertEvents collation accepts nowV7 i chunk
  | .trigger i => (w.tables.step collation (.trigger i)).map fun tables => { w with tables }
  | .commit i => (w.tables.step collation (.commit i)).map fun tables => { w with tables }
  | .rollback i => (w.tables.step collation (.rollback i)).map fun tables => { w with tables }

end World

/-- From the backfill of any event table on. The table lock of the migration keeps transactions
out. -/
def system (Any : Type) (accepts : Text → Bool) (nowV7 : ℕ → Uuid) : System World (Label Any) where
  init w := ∃ events : Table Text, (events.map Row.eventId).Nodup ∧ events.Pairwise Distinct ∧
    w.tables = { committed := migrated collation events }
  step := World.step collation accepts nowV7

/-- What the serialization of appends gives: a commit carries larger versions than the earlier ones
of its streams. -/
def LaterLarger (w : World) : Label Any → Prop
  | .commit i => ∀ t ∈ w.tables.transactions.get? i,
    ∀ old ∈ w.tables.committed.events, ∀ row ∈ t.events, Before old row
  | _ => True

instance (w : World) (l : Label Any) : Decidable (LaterLarger w l) :=
  match l with
  | .begin _ | .setConfig _ _ | .insertEvents _ _ | .trigger _ | .rollback _ => isTrue trivial
  | .commit i => inferInstanceAs (Decidable (∀ t ∈ w.tables.transactions.get? i,
      ∀ old ∈ w.tables.committed.events, ∀ row ∈ t.events, Before old row))

section Rows

variable {rows owed events events' : List (Row Raw)} {delivery delivery' : List Delivery}

theorem Before.distinct {a b : Row Raw} (h : Before a b) : Distinct a b :=
  fun hstream => (h hstream).ne

theorem pairwise_sorted (h : rows.Pairwise Distinct) :
    (rows.insertionSort fun a b => deliveryOrder collation a ≤ deliveryOrder collation b).Pairwise
      Before := by
  have hsorted := Grouping.pairwise_sortBy (deliveryOrder collation) rows
  have hdistinct := ((List.perm_insertionSort (fun a b => deliveryOrder collation a ≤
    deliveryOrder collation b) rows).pairwise_iff
      (R := Distinct) fun h heq hv => h heq.symm hv.symm).mpr h
  refine hsorted.imp₂ (fun a b hle hne hstream => ?_) hdistinct
  rw [deliveryOrder,deliveryOrder,hstream,Prod.Lex.toLex_le_toLex] at hle
  rcases hle with hlt | ⟨_,hle⟩
  · exact absurd hlt (lt_irrefl _)
  · rw [Prod.Lex.toLex_le_toLex] at hle
    rcases hle with hlt | ⟨heq,_⟩
    · exact hlt
    · exact absurd heq (hne hstream)

theorem sorted_ids (currentFrontier : ℕ) (rows : List (Row Raw)) :
    (rows.insertionSort fun a b => deliveryOrder collation a ≤ deliveryOrder collation b).map
      Row.eventId = (assigned collation currentFrontier rows).map Delivery.eventId := by
  have hfst : (orderedEvents collation rows).map Prod.fst =
      rows.insertionSort fun a b => deliveryOrder collation a ≤ deliveryOrder collation b := by
    simp [orderedEvents,List.zipIdx_map_fst]
  rw [← hfst,assigned,List.map_map,List.map_map]
  rfl

/-- The deliveries, and then the events that are owed one, go through `events` with every stream in
order. -/
def Ordered (delivery : List Delivery) (owed events : List (Row Raw)) : Prop :=
  ∃ rows, rows.map Row.eventId = delivery.map Delivery.eventId ∧ (rows ++ owed).Perm events ∧
    (rows ++ owed).Pairwise Before

theorem ordered_nil : Ordered [] [] ([] : List (Row Raw)) := ⟨[],rfl,.refl _,.nil⟩

theorem ordered_migrated (h : events.Pairwise Distinct) :
    Ordered (migrated collation events).delivery [] (migrated collation events).events := by
  refine ⟨_,sorted_ids collation 0 events,?_,?_⟩
  · rw [List.append_nil]
    exact List.perm_insertionSort _ _
  · rw [List.append_nil]
    exact pairwise_sorted collation h

theorem Ordered.insert (h : Ordered delivery [] events) (hrows : rows.Pairwise Before)
    (hlater : ∀ a ∈ events, ∀ b ∈ rows, Before a b) : Ordered delivery rows (events ++ rows) := by
  obtain ⟨delivered,hids,hperm,hordered⟩ := h
  rw [List.append_nil] at hperm hordered
  refine ⟨delivered,hids,hperm.append_right _,List.pairwise_append.mpr ⟨hordered,hrows,?_⟩⟩
  exact fun a ha b hb => hlater a (hperm.subset ha) b hb

theorem Ordered.assign (h : Ordered delivery owed events) (currentFrontier : ℕ) :
    Ordered (delivery ++ assigned collation currentFrontier owed) [] events := by
  obtain ⟨delivered,hids,hperm,hordered⟩ := h
  obtain ⟨hbefore,howed,hlater⟩ := List.pairwise_append.mp hordered
  have hsort := List.perm_insertionSort (fun a b => deliveryOrder collation a ≤
    deliveryOrder collation b) owed
  refine ⟨delivered ++ owed.insertionSort fun a b => deliveryOrder collation a ≤
    deliveryOrder collation b,?_,?_,?_⟩
  · rw [List.map_append,List.map_append,hids,sorted_ids]
  · rw [List.append_nil]
    exact (hsort.append_left _).trans hperm
  · rw [List.append_nil]
    refine List.pairwise_append.mpr ⟨hbefore,pairwise_sorted collation ?_,?_⟩
    · exact howed.imp Before.distinct
    · exact fun a ha b hb => hlater a ha b (hsort.subset hb)

theorem Ordered.commit (h : Ordered delivery [] events) (h' : Ordered delivery' [] events')
    (hlater : ∀ a ∈ events, ∀ b ∈ events', Before a b) :
    Ordered (delivery ++ delivery') [] (events ++ events') := by
  obtain ⟨rows,hids,hperm,hordered⟩ := h
  obtain ⟨rows',hids',hperm',hordered'⟩ := h'
  rw [List.append_nil] at hperm hordered hperm' hordered'
  refine ⟨rows ++ rows',by rw [List.map_append,List.map_append,hids,hids'],?_,?_⟩
  · rw [List.append_nil]
    exact hperm.append hperm'
  · rw [List.append_nil]
    refine List.pairwise_append.mpr ⟨hordered,hordered',fun a ha b hb => ?_⟩
    exact hlater a (hperm.subset ha) b (hperm'.subset hb)

theorem Ordered.inOrder {tables : Tables Raw} (hsound : tables.Sound)
    (h : Ordered tables.delivery [] tables.events) : InOrder tables := by
  obtain ⟨rows,hids,hperm,hordered⟩ := h
  rw [List.append_nil] at hperm hordered
  have hlength : rows.length = tables.delivery.length := by
    rw [← List.length_map Row.eventId,hids,List.length_map]
  have hindex : ∀ a ∈ tables.events, ∀ d ∈ tables.delivery, d.eventId = a.eventId →
      ∃ x, ∃ (hx : x < rows.length) (hx' : x < tables.delivery.length),
        rows[x] = a ∧ tables.delivery[x] = d := by
    intro a ha d hd hid
    obtain ⟨x,hx',rfl⟩ := List.getElem_of_mem hd
    have hx : x < rows.length := hlength ▸ hx'
    have hsame : rows[x].eventId = tables.delivery[x].eventId := by
      rw [← List.getElem_map Row.eventId (h := by simpa using hx),
        ← List.getElem_map Delivery.eventId (h := by simpa using hx')]
      simp only [hids]
    exact ⟨x,hx,hx',List.inj_on_of_nodup_map hsound.nodup (hperm.subset (List.getElem_mem hx)) ha
      (hsame.trans hid),rfl⟩
  have hpositions : tables.delivery.Pairwise fun d d' => d.deliveryPosition < d'.deliveryPosition := by
    refine List.pairwise_map.mp ?_
    rw [hsound.positions]
    exact List.pairwise_lt_range'
  refine ⟨fun a ha b hb hstream hversion d hd d' hd' hid hid' => ?_,fun a ha => ?_⟩
  · obtain ⟨x,hx,hx',rfl,rfl⟩ := hindex a ha d hd hid
    obtain ⟨y,hy,hy',rfl,rfl⟩ := hindex b hb d' hd' hid'
    rcases lt_trichotomy x y with hlt | rfl | hlt
    · exact List.pairwise_iff_getElem.mp hpositions x y hx' hy' hlt
    · exact absurd hversion (lt_irrefl _)
    · have hback := List.pairwise_iff_getElem.mp hordered y x hy hx hlt hstream.symm
      exact absurd hversion (lt_asymm hback)
  · have hmem : a.eventId ∈ tables.delivery.map Delivery.eventId :=
      hsound.ids.mem_iff.mpr (List.mem_map_of_mem ha)
    obtain ⟨d,hd,hid⟩ := List.mem_map.mp hmem
    refine ⟨d,⟨hd,hid⟩,fun d' hd' => ?_⟩
    exact List.inj_on_of_nodup_map (hsound.ids.nodup_iff.mpr hsound.nodup) hd'.1 hd
      (hd'.2.trans hid.symm)

end Rows

section Versions

variable {accepts : Text → Bool} {nowV7 : ℕ → Uuid}

/-- The version trigger puts every row behind what is there of its stream. -/
theorem insertRows_before {chunk : List (StreamWriteEntry Any Text)}
    {insertion insertion' : Insertion}
    (h : chunk.foldlM (insertRow accepts nowV7) insertion = .ok insertion') :
    ∃ rows, insertion'.table = insertion.table ++ rows ∧ rows.Pairwise Before ∧
      ∀ old ∈ insertion.table, ∀ row ∈ rows, Before old row := by
  induction chunk generalizing insertion with
  | nil =>
    obtain rfl := Except.ok.inj h
    exact ⟨[],by simp,.nil,by simp⟩
  | cons entry chunk ih =>
    rw [List.foldlM_cons] at h
    cases hstep : insertRow accepts nowV7 insertion entry with
    | error e => simp [hstep,bind,Except.bind] at h
    | ok mid =>
      rw [hstep] at h
      obtain ⟨row,hmid,hstream,hversion,_,_⟩ := insertRow_eq_ok hstep
      obtain ⟨rows,htable,hordered,hlater⟩ := ih h
      rw [hmid] at htable hlater
      refine ⟨row :: rows,by rw [htable,List.append_assoc,List.singleton_append],?_,?_⟩
      · refine List.pairwise_cons.mpr ⟨fun b hb => ?_,hordered⟩
        exact hlater row (List.mem_append_right _ List.mem_cons_self) b hb
      · intro old hold b hb
        rcases List.mem_cons.mp hb with rfl | hb
        · intro hsame
          have hmem : old ∈ rowsOf insertion.table entry.streamId.value :=
            List.mem_filter.mpr ⟨hold,decide_eq_true (hsame.trans hstream)⟩
          rw [hversion]
          exact Nat.lt_succ_of_le (le_currentVersion hmem)
        · exact hlater old (List.mem_append_left _ hold) b hb

end Versions

section Steps

variable {w w' : DeliveryFrontier.World Text} {i : TransactionId} {t : Transaction Text}

/-- The order of what is committed, and of each open transaction by itself. -/
structure Tracked (w : DeliveryFrontier.World Raw) : Prop where
  committed : Ordered w.committed.delivery [] w.committed.events
  opened : ∀ i t, w.transactions.get? i = some t → Ordered t.delivery t.trigger.owed t.events

theorem Tracked.update (h : Tracked w) (hcommitted : w'.committed = w.committed)
    (htransactions : w'.transactions = AList.insert i t w.transactions)
    (ht : Ordered t.delivery t.trigger.owed t.events) : Tracked w' := by
  refine ⟨hcommitted ▸ h.committed,fun j u hj => ?_⟩
  rw [htransactions,HashMap.get?_insert] at hj
  split_ifs at hj
  · exact Option.some.inj hj ▸ ht
  · exact h.opened j u hj

theorem Tracked.finish (h : Tracked w) : Tracked (w.finish i) :=
  ⟨h.committed,fun j u hj => h.opened j u (get?_finish hj).2⟩

theorem Tracked.triggers (h : Tracked w) (hget : w.transactions.get? i = some t)
    (htriggers : w.Triggers collation i t w') : Tracked w' := by
  have ht := h.opened i t hget
  cases htriggers with
  | selectFrontier htrigger =>
    rw [htrigger] at ht
    exact h.update rfl rfl ht
  | @insertDelivery _ currentFrontier htrigger =>
    rw [htrigger] at ht
    exact h.update rfl rfl (ht.assign collation currentFrontier)
  | updateFrontier htrigger =>
    rw [htrigger] at ht
    exact h.update rfl rfl ht

/-- Rows come in order, behind those of their transaction, and it commits behind what is there. -/
def Later (w : DeliveryFrontier.World Text) : DeliveryFrontier.Label Text → Prop
  | .insertEvents i rows => rows.Pairwise Before ∧ ∀ t, w.transactions.get? i = some t →
      ∀ old ∈ t.events, ∀ row ∈ rows, Before old row
  | .commit i => ∀ t, w.transactions.get? i = some t →
      ∀ old ∈ w.committed.events, ∀ row ∈ t.events, Before old row
  | _ => True

theorem Tracked.step {l : DeliveryFrontier.Label Text} (h : Tracked w)
    (hstep : w.step collation l = some w') (hlater : Later w l) : Tracked w' := by
  cases World.step_cases collation hstep with
  | «begin» => exact h.update rfl rfl ordered_nil
  | @insertEvents i rows t hget hidle =>
    have ht := h.opened i t hget
    rw [hidle] at ht
    exact h.update rfl rfl (ht.insert hlater.1 (hlater.2 t hget))
  | trigger hget htriggers => exact h.triggers collation hget htriggers
  | @commit i t hget hidle =>
    have ht := h.opened i t hget
    rw [hidle] at ht
    exact ⟨h.committed.commit ht (hlater t hget),h.finish.opened⟩
  | rollback => exact h.finish
  | highWatermark | readEnvelopes => exact ⟨h.committed,h.opened⟩

end Steps

section Runs

variable {accepts : Text → Bool} {nowV7 : ℕ → Uuid} {w w' : World}

theorem tracked_step {l : Label Any} (h : Inv w.tables ∧ Tracked w.tables) (hlater : LaterLarger w l)
    (hstep : (system collation Any accepts nowV7).step w l = some w') :
    Inv w'.tables ∧ Tracked w'.tables := by
  obtain ⟨hinv,htracked⟩ := h
  cases l with
  | «begin» i =>
    obtain ⟨tables,htables,rfl⟩ := Option.map_eq_some_iff.mp hstep
    exact ⟨(step_inv collation hinv htables).1,htracked.step collation htables trivial⟩
  | setConfig i expectedVersions =>
    obtain ⟨t,_,rfl⟩ := Option.map_eq_some_iff.mp hstep
    exact ⟨hinv,htracked⟩
  | insertEvents i chunk =>
    simp only [system,World.step,World.insertEvents,Option.bind_eq_some_iff] at hstep
    obtain ⟨t,hget,hstep⟩ := hstep
    split at hstep
    · cases hstep
    · rename_i insertion hinsert
      split_ifs at hstep
      obtain ⟨tables,htables,rfl⟩ := Option.map_eq_some_iff.mp hstep
      obtain ⟨rows,htable,hrows,hold⟩ := insertRows_before hinsert
      rw [htable,List.drop_left] at htables
      refine ⟨(step_inv collation hinv htables).1,
        htracked.step collation htables ⟨hrows,fun t' hget' old hmem => ?_⟩⟩
      obtain rfl := Option.some.inj (hget.symm.trans hget')
      exact hold old (List.mem_append_right _ hmem)
  | trigger i =>
    obtain ⟨tables,htables,rfl⟩ := Option.map_eq_some_iff.mp hstep
    exact ⟨(step_inv collation hinv htables).1,htracked.step collation htables trivial⟩
  | commit i =>
    obtain ⟨tables,htables,rfl⟩ := Option.map_eq_some_iff.mp hstep
    exact ⟨(step_inv collation hinv htables).1,htracked.step collation htables hlater⟩
  | rollback i =>
    obtain ⟨tables,htables,rfl⟩ := Option.map_eq_some_iff.mp hstep
    exact ⟨(step_inv collation hinv htables).1,htracked.step collation htables trivial⟩

/-- In every run from the backfill on, every stream is delivered in the order of its versions and
every event once. -/
theorem delivery_in_order {w : World}
    (h : ReachableBy (system collation Any accepts nowV7) LaterLarger w) :
    InOrder w.tables.committed := by
  have hinv : Inv w.tables ∧ Tracked w.tables := by
    refine ReachableBy.invariant (I := fun w => Inv w.tables ∧ Tracked w.tables) ?_ ?_ h
    · rintro w ⟨events,hnodup,hdistinct,htables⟩
      refine ⟨htables ▸ migrated_inv collation hnodup,?_⟩
      rw [htables]
      refine ⟨ordered_migrated collation hdistinct,fun i t hi => ?_⟩
      simp at hi
    · exact fun w l w' hI hlater hstep => tracked_step collation hI hlater hstep
  exact hinv.2.committed.inOrder hinv.1.committed

end Runs

namespace Legacy

def account (value : String) (hvalue : value = "a" ∨ value = "b") : StreamId :=
  ⟨value,by rcases hvalue with rfl | rfl <;> decide,by rcases hvalue with rfl | rfl <;> decide,
    by rcases hvalue with rfl | rfl <;> decide,by rcases hvalue with rfl | rfl <;> decide⟩

def entry (value : String) (hvalue : value = "a" ∨ value = "b") : StreamWriteEntry Unit Text :=
  ⟨account value hvalue,(),"Opened",.null⟩

abbrev migratedStore : System World (Label Unit) :=
  system (fun s : String => s) Unit (fun _ => true) fun drawn => 10 + drawn

/-- The second event of a stream was recorded under the smaller identifier. -/
def start : World :=
  ⟨{ committed := migrated (fun s : String => s)
      [⟨1,"a",2,"Opened",.null⟩,⟨2,"a",1,"Opened",.null⟩] },fun _ => ∅,0⟩

/-- Two statements of one append, each with events of both streams. -/
def labels : List (Label Unit) :=
  [.begin 0,.insertEvents 0 [entry "b" (by simp),entry "a" (by simp)],.trigger 0,.trigger 0,.trigger 0,
    .insertEvents 0 [entry "b" (by simp),entry "a" (by simp)],.trigger 0,.trigger 0,.trigger 0,
    .commit 0]

end Legacy

theorem delivery_in_order_legacy : ∃ w, exec Legacy.migratedStore Legacy.start Legacy.labels = some w ∧
    w.tables.committed.delivery.map Delivery.eventId = [2,1,11,10,13,12] ∧
    InOrder w.tables.committed := by
  have hrun : (exec Legacy.migratedStore Legacy.start Legacy.labels).map
      (fun w => w.tables.committed.delivery.map Delivery.eventId) = some [2,1,11,10,13,12] := by
    decide +kernel
  obtain ⟨w,hw,hids⟩ := Option.map_eq_some_iff.mp hrun
  have hinit : Legacy.migratedStore.init Legacy.start := ⟨_,by decide,by decide,rfl⟩
  have hlater : AllSteps Legacy.migratedStore LaterLarger Legacy.start Legacy.labels := by
    decide +kernel
  exact ⟨w,hw,hids,delivery_in_order _ (ReachableBy.exec (.init hinit) hlater hw)⟩

end DeliveryOrder
end EventCore
