import EventCore.AppendLocks
import EventCore.Completion

/-! Why appends to the Postgres store can always go on: a row is inserted only into a stream that is
locked and under an identifier that nobody else has, so that no append waits for the rows of another
one, and whoever waits at a lock waits in the end for an append that goes on or is rolled back. -/
namespace EventCore
namespace AppendProgress
open Interaction Runs SerdeJson AppendLocks Completion
open SqliteStore (Row Table violatesUnique)
open PostgresAppends (AppendId Choice)
open LockOrder (LockTable Moves Tidy)

variable {Any : Type}

section Careful

variable {κ α β : Type} (hashtextextended : String → κ)

def drawnBy : (q : Request Any) → Answer q → Set Uuid
  | .nowV7 _,.ok eventIds => {eventId | eventId ∈ eventIds}
  | _,_ => ∅

def gainedBy (q : Request Any) (a : Answer q) : Set (Lock κ) :=
  {l | World.lock? hashtextextended q = some l ∧ a.isOk}

/-- What an open append may ask for: it does not begin again, and inserts a row into a stream it has
locked, under an identifier it has drawn. -/
def Admitted (held : Set (Lock κ)) (ids : Set Uuid) : Request Any → Prop
  | .begin => False
  | .insertRow eventId entry _ =>
    eventId ∈ ids ∧ Lock.advisory (hashtextextended entry.streamId.value) ∈ held
  | _ => True

/-- A program that asks only for what is admitted, by the locks and identifiers it has by then. -/
def Careful (post : Set (Lock κ) → α → Prop) :
    Set (Lock κ) → Set Uuid → Program (Request Any) Answer α → Prop
  | held,_,.done a => post held a
  | _,_,.cut => True
  | held,ids,.ask q k => Admitted hashtextextended held ids q ∧
      ∀ a, Careful post (held ∪ gainedBy hashtextextended q a) (ids ∪ drawnBy q a) (k a)

def Begun (p : Program (Request Any) Answer α) : Prop := p.Only fun q => q.starts = false

variable {hashtextextended} {held base : Set (Lock κ)} {ids given : Set Uuid}
  {post post' : Set (Lock κ) → α → Prop}

theorem Admitted.mono {q : Request Any} (h : Admitted hashtextextended base given q)
    (hbase : base ⊆ held) (hgiven : given ⊆ ids) : Admitted hashtextextended held ids q := by
  cases q with
  | insertRow eventId entry currentMaxVersion => exact ⟨hgiven h.1,hbase h.2⟩
  | _ => exact h

theorem Careful.begun {p : Program (Request Any) Answer α}
    (h : Careful hashtextextended post held ids p) : Begun p := by
  induction p generalizing held ids with
  | done a => trivial
  | cut => trivial
  | ask q k ih =>
    refine ⟨?_,fun a => ih a (h.2 a)⟩
    cases q with
    | «begin» => exact h.1.elim
    | _ => rfl

theorem Careful.mono (hpost : ∀ held a, post held a → post' held a)
    {p : Program (Request Any) Answer α} (h : Careful hashtextextended post held ids p) :
    Careful hashtextextended post' held ids p := by
  induction p generalizing held ids with
  | done a => exact hpost held a h
  | cut => trivial
  | ask q k ih => exact ⟨h.1,fun a => ih a (h.2 a)⟩

theorem Careful.bind {post : Set (Lock κ) → β → Prop} {p : Program (Request Any) Answer α}
    {f : α → Program (Request Any) Answer β} (h : Careful hashtextextended
      (fun held a => ∀ ids, Careful hashtextextended post held ids (f a)) held ids p) :
    Careful hashtextextended post held ids (p >>= f) := by
  induction p generalizing held ids with
  | done a => exact h ids
  | cut => trivial
  | ask q k ih => exact ⟨h.1,fun a => ih a (h.2 a)⟩

theorem Careful.of_only {p : Program (Request Any) Answer α}
    (hp : p.Only (Admitted hashtextextended base given)) (hbase : base ⊆ held)
    (hgiven : given ⊆ ids) : Careful hashtextextended (fun held _ => base ⊆ held) held ids p := by
  induction p generalizing held ids with
  | done a => exact hbase
  | cut => trivial
  | ask q k ih =>
    exact ⟨hp.1.mono hbase hgiven,fun a => ih a (hp.2 a) (hbase.trans Set.subset_union_left)
      (hgiven.trans Set.subset_union_left)⟩

end Careful

section Programs

variable {κ α : Type} {hashtextextended : String → κ} {streams : List String}
  {held : Set (Lock κ)} {ids given : Set Uuid}

theorem insertRows_admitted {values : List (Uuid × StreamWriteEntry Any Text)}
    (h : ∀ value ∈ values, value.1 ∈ given ∧ value.2.streamId.value ∈ streams) :
    (insertRows values).run.Only
      (Admitted hashtextextended (streamLocks hashtextextended streams) given) := by
  induction values with
  | nil => trivial
  | cons value values ih =>
    obtain ⟨⟨hid,hstream⟩,hvalues⟩ := List.forall_mem_cons.mp h
    refine Program.Only.bindExcept ?_ fun currentMaxVersion => ?_
    · refine Program.Only.bindExcept (p := ask _) ⟨trivial,fun _ => trivial⟩ fun streamVersion => ?_
      cases streamVersion with
      | none => trivial
      | some streamVersion =>
        exact Program.Only.bindExcept (p := ask _) ⟨trivial,fun _ => trivial⟩ fun _ => trivial
    · refine Program.Only.bindExcept (p := ask _) ⟨⟨hid,_,hstream,rfl⟩,fun _ => trivial⟩
        fun row => ?_
      exact Program.Only.bindExcept (ih hvalues) fun _ => trivial

theorem statement_careful {q : PostgresAppends.Request Any} (hq : Covered streams q)
    (hheld : streamLocks hashtextextended streams ⊆ held) :
    Careful hashtextextended (fun held _ => streamLocks hashtextextended streams ⊆ held) held ids
      (statement q).run := by
  cases q with
  | «begin» | advisoryXactLock streamId => exact hq.elim
  | insertEvents chunk =>
    refine ⟨trivial,fun a => ?_⟩
    match a with
    | .error e => exact hheld.trans Set.subset_union_left
    | .ok eventIds =>
      have hdrawn : {eventId | eventId ∈ eventIds} ⊆
          ids ∪ drawnBy (.nowV7 chunk.length : Request Any) (.ok eventIds) :=
        Set.subset_union_right
      refine .of_only ?_ (hheld.trans Set.subset_union_left) hdrawn
      refine Program.Only.bindExcept (insertRows_admitted fun value hvalue => ?_) fun rows => ?_
      · exact ⟨(List.of_mem_zip hvalue).1,hq _ (List.of_mem_zip hvalue).2⟩
      · refine Program.Only.bindExcept (p := ask _) ⟨trivial,fun _ => trivial⟩ fun _ => ?_
        refine Program.Only.bindExcept (p := ask _) ⟨trivial,fun _ => trivial⟩ fun _ => ?_
        exact ⟨trivial,fun _ => trivial⟩
  | _ => exact ⟨trivial,fun _ => hheld.trans Set.subset_union_left⟩

theorem covered_careful {p : PostgresAppends.Append Any α} (hp : p.run.Only (Covered streams))
    (hheld : streamLocks hashtextextended streams ⊆ held) :
    Careful hashtextextended (fun _ _ => True) held ids (served p) := by
  suffices h : ∀ p : Program (PostgresAppends.Request Any) PostgresAppends.Answer
      (Except EventStoreError α), p.Only (Covered streams) → ∀ held ids,
      streamLocks hashtextextended streams ⊆ held → Careful hashtextextended (fun _ _ => True) held
        ids (p.expand fun q => (statement q).run) from h p.run hp held ids hheld
  intro p hp
  induction p with
  | done a => exact fun _ _ _ => trivial
  | cut => exact fun _ _ _ => trivial
  | ask q k ih =>
    intro held ids hheld
    refine .bind ((statement_careful hp.1 hheld).mono fun held a hheld ids => ?_)
    exact ih a (hp.2 a) held ids hheld

theorem lockStreams_careful (expectedStreams : List (Sigma fun _ : StreamId => StreamVersion)) :
    Careful hashtextextended (fun held' r => ∀ a, r = .ok a → held ⊆ held' ∧
      streamLocks hashtextextended (expectedStreams.map fun p => p.1.value) ⊆ held') held ids
      (served (PostgresAppends.lockStreams expectedStreams : PostgresAppends.Append Any Unit)) := by
  induction expectedStreams generalizing held ids with
  | nil =>
    intro _ _
    refine ⟨subset_rfl,?_⟩
    rintro l ⟨streamId,hmem,_⟩
    cases hmem
  | cons p expectedStreams ih =>
    refine ⟨trivial,fun a => ?_⟩
    match a with
    | .error e => exact fun _ he => nomatch he
    | .ok () =>
      refine .mono (fun held' r hr a ha => ?_) ih
      obtain ⟨hsubset,hlocks⟩ := hr a ha
      refine ⟨Set.subset_union_left.trans hsubset,?_⟩
      rintro l ⟨streamId,hmem,rfl⟩
      rcases List.mem_cons.mp hmem with rfl | hmem
      · exact hsubset (.inr ⟨rfl,rfl⟩)
      · exact hlocks ⟨streamId,hmem,rfl⟩

theorem careful_bind {β : Type} {p : PostgresAppends.Append Any α}
    {f : α → PostgresAppends.Append Any β}
    (h : Careful hashtextextended (fun held r => ∀ a, r = .ok a → ∀ ids,
      Careful hashtextextended (fun _ _ => True) held ids (served (f a))) held ids (served p)) :
    Careful hashtextextended (fun _ _ => True) held ids (served (p >>= f)) := by
  have hserved : served (p >>= f) = served p >>= fun r =>
      (ExceptT.bindCont f r : Program _ _ _).expand fun q => (statement q).run :=
    Program.expand_bind _ _ _
  rw [hserved]
  refine .bind (h.mono fun held r hr ids => ?_)
  match r with
  | .ok a => exact hr a rfl ids
  | .error e => trivial

/-- A program that begins, and is careful from there on if it could. -/
def Opening (hashtextextended : String → κ) : Program (Request Any) Answer α → Prop
  | .ask .begin k => (∀ ids, Careful hashtextextended (fun _ _ => True) ∅ ids (k (.ok ()))) ∧
      ∀ e, Begun (k (.error e))
  | _ => False

theorem appendEvents_opening (writes : StreamWrites Any Text) :
    Opening hashtextextended (appendEvents writes) ∨ Begun (appendEvents writes) := by
  have hcareful : ∀ ids, Careful hashtextextended (fun _ _ => True) ∅ ids
      (served (PostgresAppends.lockStreams (expectedStreams writes) >>= fun _ =>
        behindLocks writes)) := fun ids =>
    careful_bind ((lockStreams_careful _).mono fun held r hr a ha ids =>
      covered_careful (behindLocks_only writes) (hr a ha).2)
  unfold appendEvents
  rcases appendEvents_eq writes with hprogram | hprogram
  · rw [hprogram]
    exact .inr trivial
  · rw [hprogram]
    exact .inl ⟨hcareful,fun _ => trivial⟩

end Programs

section Rows

variable {κ σ : Type} [DecidableEq κ] [LinearOrder σ] {hashtextextended : String → κ}
  {accepts : Text → Bool} {collation : String → σ} {nowV7 : ℕ → Uuid} {w u w' : World κ}
  {i : AppendId} {q : Request Any} {a : Answer q}

variable (nowV7) in
/-- What a request does to the rows of the open transactions: an identifier is drawn once, and a
transaction gets no row that it has not asked for. -/
structure Draws (w : World κ) (i : AppendId) (q : Request Any) (a : Answer q) (w' : World κ) :
    Prop where
  le : w.drawn ≤ w'.drawn
  drawn : ∀ eventId ∈ drawnBy q a, ∃ n, w.drawn ≤ n ∧ n < w'.drawn ∧ eventId = nowV7 n
  others : ∀ j, j ≠ i → w'.transactions.get? j = w.transactions.get? j
  rows : ∀ t, w'.transactions.get? i = some t → ∀ row ∈ t.rows,
    (∃ t, w.transactions.get? i = some t ∧ row ∈ t.rows) ∨
      ∃ entry currentMaxVersion, q = .insertRow row.eventId entry currentMaxVersion ∧
        row.streamId = entry.streamId.value

omit [DecidableEq κ] in
theorem Draws.same (hdrawn : w'.drawn = w.drawn) (hnone : drawnBy q a = ∅)
    (htransactions : w'.transactions = w.transactions) : Draws nowV7 w i q a w' := by
  refine ⟨hdrawn.ge,fun eventId hid => ?_,fun j _ => by rw [htransactions],fun t ht row hrow => ?_⟩
  · rw [hnone] at hid
    exact hid.elim
  · rw [htransactions] at ht
    exact .inl ⟨t,ht,hrow⟩

omit [DecidableEq κ] in
theorem Draws.update {t : Transaction} (hdrawn : w.drawn = u.drawn) (hnone : drawnBy q a = ∅)
    (htransactions : w.transactions = u.transactions) (hrows : ∀ row ∈ t.rows,
      (∃ t, u.transactions.get? i = some t ∧ row ∈ t.rows) ∨
        ∃ entry currentMaxVersion, q = .insertRow row.eventId entry currentMaxVersion ∧
          row.streamId = entry.streamId.value) : Draws nowV7 u i q a (w.update i t) := by
  refine ⟨hdrawn.ge,fun eventId hid => ?_,fun j hji => ?_,fun t' ht row hrow => ?_⟩
  · rw [hnone] at hid
    exact hid.elim
  · rw [World.update,HashMap.get?_insert_ne _ _ hji,htransactions]
  · rw [World.update,HashMap.get?_insert_self] at ht
    rw [← Option.some.inj ht] at hrow
    exact hrows row hrow

omit [DecidableEq κ] in
theorem Draws.finish (hdrawn : w'.drawn = w.drawn) (hnone : drawnBy q a = ∅)
    (htransactions : w'.transactions = (w.finish i).transactions) : Draws nowV7 w i q a w' := by
  refine ⟨hdrawn.ge,fun eventId hid => ?_,fun j hji => ?_,fun t ht => ?_⟩
  · rw [hnone] at hid
    exact hid.elim
  · rw [htransactions,World.finish,HashMap.get?,HashMap.get?,AList.lookup_erase_ne hji]
  · rw [htransactions,World.finish,HashMap.get?,AList.lookup_erase] at ht
    cases ht

theorem numberRow_eq {expectedVersions numbered : HashMap String ℕ} {currentMaxVersion : ℕ}
    {eventId : Uuid} {entry : StreamWriteEntry Any Text} {row : Row Text}
    (h : numberRow accepts expectedVersions currentMaxVersion eventId entry =
      .ok (row,numbered)) : row.eventId = eventId ∧ row.streamId = entry.streamId.value := by
  unfold numberRow at h
  split at h
  · cases h
  · split at h
    · cases h
      exact ⟨rfl,rfl⟩
    · split_ifs at h
      cases h
      exact ⟨rfl,rfl⟩

omit [DecidableEq κ] in
theorem execute_draws {t : Transaction} (ht : w.transactions.get? i = some t)
    (h : w.execute accepts collation nowV7 i t q = some (a,w')) : Draws nowV7 w i q a w' := by
  have hown : ∀ row ∈ t.rows, (∃ t, w.transactions.get? i = some t ∧ row ∈ t.rows) ∨
      ∃ entry currentMaxVersion, q = .insertRow row.eventId entry currentMaxVersion ∧
        row.streamId = entry.streamId.value := fun row hrow => .inl ⟨t,ht,hrow⟩
  cases q with
  | «begin» => cases h
  | commit =>
    cases h
    exact .finish rfl rfl rfl
  | nowV7 count =>
    cases h
    refine ⟨Nat.le_add_right _ _,fun eventId hid => ?_,fun _ _ => rfl,fun t ht row hrow =>
      .inl ⟨t,ht,hrow⟩⟩
    obtain ⟨n,hn,rfl⟩ := List.mem_map.mp hid
    exact ⟨w.drawn + n,Nat.le_add_right _ _,
      Nat.add_lt_add_left (List.mem_range.mp hn) _,rfl⟩
  | insertRow eventId entry currentMaxVersion =>
    simp only [World.execute] at h
    split at h
    · cases h
      exact .same rfl rfl rfl
    · rename_i row numbered hnumber
      obtain ⟨rfl,hstream⟩ := numberRow_eq hnumber
      split_ifs at h
      · cases h
        exact .same rfl rfl rfl
      · cases h
        refine .update rfl rfl rfl fun r hr => ?_
        rcases List.mem_append.mp hr with hr | hr
        · exact hown r hr
        · obtain rfl := List.mem_singleton.mp hr
          exact .inr ⟨entry,currentMaxVersion,rfl,hstream⟩
  | insertDelivery insertedEvents currentFrontier =>
    simp only [World.execute] at h
    split_ifs at h
    · cases h
      exact .update rfl rfl rfl hown
    · cases h
      exact .same rfl rfl rfl
  | setConfig expectedVersions | updateFrontier lastPosition =>
    cases h
    exact .update rfl rfl rfl hown
  | advisoryXactLock streamId | selectMaxVersion streamId | selectLastVersion streamId
    | lockRow streamId streamVersion | selectFrontier =>
    cases h
    exact .same rfl rfl rfl

theorem grant_same (h : w.grant hashtextextended i q = some u) :
    u.transactions = w.transactions ∧ u.drawn = w.drawn := by
  unfold World.grant at h
  split at h
  · rw [← Option.some.inj h]
    exact ⟨rfl,rfl⟩
  · split_ifs at h
    rw [← Option.some.inj h]
    exact ⟨rfl,rfl⟩

theorem perform_draws {c : Choice}
    (h : w.perform hashtextextended accepts collation nowV7 i q c = some (a,w')) :
    Draws nowV7 w i q a w' := by
  cases c with
  | fail =>
    by_cases hcommit : q = .commit
    · subst hcommit
      cases h
      exact .finish rfl rfl rfl
    · have hfail : w.perform hashtextextended accepts collation nowV7 i q .fail =
          some (.error (.storeFailure q.operation),w) := by
        cases q with
        | commit => exact absurd rfl hcommit
        | _ => rfl
      rw [h] at hfail
      cases hfail
      refine .same rfl ?_ rfl
      cases q <;> rfl
  | ok =>
    by_cases hbegin : q = .begin
    · subst hbegin
      simp only [World.perform] at h
      split at h
      · cases h
        exact .update rfl rfl rfl fun row hrow => absurd hrow List.not_mem_nil
      · cases h
    · have hok : w.perform hashtextextended accepts collation nowV7 i q .ok =
          (w.transactions.get? i).bind fun t => (w.grant hashtextextended i q).bind fun w =>
            w.execute accepts collation nowV7 i t q := by
        cases q with
        | «begin» => exact absurd rfl hbegin
        | _ => rfl
      rw [h] at hok
      obtain ⟨t,ht,hrest⟩ := Option.bind_eq_some_iff.mp hok.symm
      obtain ⟨u,hgrant,hexecute⟩ := Option.bind_eq_some_iff.mp hrest
      obtain ⟨htransactions,hdrawn⟩ := grant_same hgrant
      rw [← htransactions] at ht
      have hdraws := execute_draws ht hexecute
      exact ⟨hdrawn ▸ hdraws.le,hdrawn ▸ hdraws.drawn,
        fun j hji => by rw [hdraws.others j hji,htransactions],htransactions ▸ hdraws.rows⟩

end Rows

section Apart

variable {κ σ : Type} [DecidableEq κ] [LinearOrder σ] (hashtextextended : String → κ)
  (nowV7 : ℕ → Uuid)

abbrev Appending (Any κ : Type) : Type :=
  State AppendId (Request Any) Answer (World κ) (Except EventStoreError Unit)

/-- What is kept of a client, by the locks it holds and the identifiers it has drawn. -/
def ClientOk (w : World κ) (i : AppendId) (ids : Set Uuid)
    (p : Program (Request Any) Answer (Except EventStoreError Unit)) : Prop :=
  (w.live i → Careful hashtextextended (fun _ _ => True) {l | w.holder l = some i} ids p) ∧
    (¬ w.live i → Opening hashtextextended p ∨ Begun p)

/-- Whose the identifiers are that have been drawn; nobody has one of another append. -/
structure HandedOut (nowV7 : ℕ → Uuid) (drawn : ℕ) (ids : AppendId → Set Uuid) : Prop where
  drawn : ∀ i, ∀ eventId ∈ ids i, ∃ n < drawn, eventId = nowV7 n
  apart : ∀ i j, ∀ eventId ∈ ids i, eventId ∈ ids j → i = j

/-- The rows of an open transaction are under its own identifiers and in streams it has locked. -/
def RowsOk (w : World κ) (i : AppendId) (ids : Set Uuid) : Prop :=
  ∀ t, w.transactions.get? i = some t → ∀ row ∈ t.rows,
    row.eventId ∈ ids ∧ w.holder (.advisory (hashtextextended row.streamId)) = some i

structure Apart (s : Appending Any κ) (ids : AppendId → Set Uuid) : Prop where
  handedOut : HandedOut nowV7 s.world.drawn ids
  rows : ∀ i, RowsOk hashtextextended s.world i (ids i)
  client : ∀ i p, s.client i = .running p → ClientOk hashtextextended s.world i (ids i) p

variable {hashtextextended nowV7} {accepts : Text → Bool} {collation : String → σ}
  {w w' : World κ} {i : AppendId} {ids : AppendId → Set Uuid} {s : Appending Any κ}

omit [DecidableEq κ] in
theorem ClientOk.stable {ids : Set Uuid}
    {p : Program (Request Any) Answer (Except EventStoreError Unit)}
    (h : ClientOk hashtextextended w i ids p)
    (hmoves : Moves (w.live i) (w'.live i) {l | w.holder l = some i} {l | w'.holder l = some i} ∅) :
    ClientOk hashtextextended w' i ids p := by
  refine ⟨fun hlive => ?_,fun hlive => ?_⟩
  · obtain ⟨hlive',hheld⟩ := hmoves.stays hlive
    rw [hheld,Set.union_empty]
    exact h.1 hlive'
  · by_cases hlive' : w.live i = true
    · exact .inr (h.1 hlive').begun
    · exact h.2 hlive'

theorem ClientOk.perform {ids : Set Uuid} {q : Request Any} {c : Choice} {a : Answer q}
    {k : Answer q → Program (Request Any) Answer (Except EventStoreError Unit)}
    (htidy : Tidy w.holder w.live) (h : ClientOk hashtextextended w i ids (.ask q k))
    (hperform : w.perform hashtextextended accepts collation nowV7 i q c = some (a,w')) :
    ClientOk hashtextextended w' i (ids ∪ drawnBy q a) (k a) := by
  cases hstarts : q.starts with
  | false =>
    have hmoves : Moves (w.live i) (w'.live i) {l | w.holder l = some i} {l | w'.holder l = some i}
        (gainedBy hashtextextended q a) :=
      (table hashtextextended accepts collation nowV7).own htidy hperform hstarts
    refine ⟨fun hlive => ?_,fun _ => .inr ?_⟩
    · obtain ⟨hlive',hheld⟩ := hmoves.stays hlive
      rw [hheld]
      exact (h.1 hlive').2 a
    · by_cases hlive' : w.live i = true
      · exact ((h.1 hlive').2 a).begun
      · rcases h.2 hlive' with hopening | hbegun
        · cases q with
          | «begin» => cases hstarts
          | _ => exact hopening.elim
        · exact hbegun.2 a
  | true =>
    obtain rfl : q = .begin := by
      cases q with
      | «begin» => rfl
      | _ => cases hstarts
    have hidle : ¬ w.live i := fun hlive => (h.1 hlive).1
    obtain ⟨hgranted,herror⟩ := (h.2 hidle).resolve_right fun hbegun => nomatch hbegun.1
    have hstart := (table hashtextextended accepts collation nowV7).start htidy hperform rfl
    match a with
    | .ok () =>
      have hheld : {l | w'.holder l = some i} = ∅ :=
        (hstart.resolve_right fun hnot => hnot.1 rfl).2
      refine ⟨fun _ => ?_,fun _ => .inr (hgranted ∅).begun⟩
      rw [hheld]
      exact hgranted _
    | .error e =>
      have hmoves := (hstart.resolve_left fun hok => nomatch hok.1).2
      exact ⟨fun hlive => absurd (hmoves.stays hlive).1 hidle,fun _ => .inr (herror e)⟩

theorem HandedOut.draw (hnow : Function.Injective nowV7) {drawn drawn' : ℕ} {new : Set Uuid}
    (h : HandedOut nowV7 drawn ids) (hle : drawn ≤ drawn')
    (hnew : ∀ eventId ∈ new, ∃ n, drawn ≤ n ∧ n < drawn' ∧ eventId = nowV7 n) (i : AppendId) :
    HandedOut nowV7 drawn' (Function.update ids i (ids i ∪ new)) := by
  have hfresh : ∀ j, ∀ eventId ∈ new, eventId ∉ ids j := by
    intro j eventId hid hmem
    obtain ⟨n,hn,_,rfl⟩ := hnew eventId hid
    obtain ⟨m,hm,heq⟩ := h.drawn j _ hmem
    have hnm := hnow heq
    omega
  have hold : ∀ {j eventId}, eventId ∈ ids j → ∃ n < drawn', eventId = nowV7 n := by
    intro j eventId hid
    obtain ⟨n,hn,heq⟩ := h.drawn j eventId hid
    exact ⟨n,hn.trans_le hle,heq⟩
  have hcases : ∀ {j eventId}, eventId ∈ Function.update ids i (ids i ∪ new) j →
      eventId ∈ ids j ∨ j = i ∧ eventId ∈ new := by
    intro j eventId hid
    by_cases hji : j = i
    · subst hji
      rw [Function.update_self] at hid
      exact hid.imp_right fun hid => ⟨rfl,hid⟩
    · rw [Function.update_of_ne hji] at hid
      exact .inl hid
  refine ⟨fun j eventId hid => ?_,fun j j' eventId hid hid' => ?_⟩
  · rcases hcases hid with hid | ⟨_,hid⟩
    · exact hold hid
    · obtain ⟨n,_,hn,heq⟩ := hnew eventId hid
      exact ⟨n,hn,heq⟩
  · rcases hcases hid with hkept | ⟨hj,hfirst⟩
    · rcases hcases hid' with hkept' | ⟨_,hfirst'⟩
      · exact h.apart j j' eventId hkept hkept'
      · exact absurd hkept (hfresh j eventId hfirst')
    · rcases hcases hid' with hkept' | ⟨hj',_⟩
      · exact absurd hkept' (hfresh j' eventId hfirst)
      · rw [hj,hj']

omit [DecidableEq κ] in
theorem RowsOk.stable {ids : Set Uuid} (h : RowsOk hashtextextended w i ids)
    (htransactions : w'.transactions.get? i = w.transactions.get? i)
    (hmoves : Moves (w.live i) (w'.live i) {l | w.holder l = some i} {l | w'.holder l = some i} ∅) :
    RowsOk hashtextextended w' i ids := by
  intro t ht row hrow
  have hlive : w'.live i = true := by
    rw [World.live,ht]
    rfl
  rw [htransactions] at ht
  obtain ⟨hid,hholder⟩ := h t ht row hrow
  have hheld := (hmoves.stays hlive).2.symm.subset (.inl hholder)
  exact ⟨hid,hheld⟩

theorem RowsOk.perform {ids : Set Uuid} {q : Request Any} {c : Choice} {a : Answer q}
    {k : Answer q → Program (Request Any) Answer (Except EventStoreError Unit)}
    (h : RowsOk hashtextextended w i ids) (htidy : Tidy w.holder w.live)
    (hok : ClientOk hashtextextended w i ids (.ask q k))
    (hperform : w.perform hashtextextended accepts collation nowV7 i q c = some (a,w')) :
    RowsOk hashtextextended w' i (ids ∪ drawnBy q a) := by
  intro t ht row hrow
  have hrows := (perform_draws hperform).rows t ht row hrow
  have hlive : w'.live i = true := by
    rw [World.live,ht]
    rfl
  have hstarts : q.starts = false := by
    rcases hrows with ⟨t,ht,_⟩ | ⟨entry,currentMaxVersion,rfl,_⟩
    · have hopen : w.live i = true := by
        rw [World.live,ht]
        rfl
      exact (hok.1 hopen).begun.1
    · rfl
  obtain ⟨hopen,hheld⟩ :=
    ((table hashtextextended accepts collation nowV7).own htidy hperform hstarts).stays hlive
  have hheld : {l | w'.holder l = some i} = {l | w.holder l = some i} ∪ _ := hheld
  rcases hrows with ⟨t,ht,hrow⟩ | ⟨entry,currentMaxVersion,rfl,hstream⟩
  · obtain ⟨hid,hholder⟩ := h t ht row hrow
    exact ⟨.inl hid,hheld.symm.subset (.inl hholder)⟩
  · obtain ⟨hid,hholder⟩ := (hok.1 hopen).1
    rw [hstream]
    exact ⟨.inl hid,hheld.symm.subset (.inl hholder)⟩

/-- A request that is performed keeps the appends apart, whatever its client makes of the answer. -/
theorem Apart.perform (hnow : Function.Injective nowV7) (h : Apart hashtextextended nowV7 s ids)
    (htidy : Tidy s.world.holder s.world.live) {q : Request Any} {c : Choice} {a : Answer q}
    {k : Answer q → Program (Request Any) Answer (Except EventStoreError Unit)}
    (hrunning : s.client i = .running (.ask q k))
    (hperform : s.world.perform hashtextextended accepts collation nowV7 i q c = some (a,w'))
    {client : Client (Request Any) Answer (Except EventStoreError Unit)}
    (hclient : ∀ p, client = .running p → p = k a) :
    Apart hashtextextended nowV7 ⟨w',Function.update s.client i client⟩
      (Function.update ids i (ids i ∪ drawnBy q a)) := by
  have hok := h.client i _ hrunning
  have hdraws := perform_draws hperform
  have hother : ∀ j, j ≠ i → Moves (s.world.live j) (w'.live j) {l | s.world.holder l = some j}
      {l | w'.holder l = some j} ∅ := fun j hji =>
    (table hashtextextended accepts collation nowV7).other htidy hperform hji
  refine ⟨h.handedOut.draw hnow hdraws.le hdraws.drawn i,fun j => ?_,fun j p hp => ?_⟩
  · by_cases hji : j = i
    · subst hji
      rw [Function.update_self]
      exact (h.rows j).perform htidy hok hperform
    · rw [Function.update_of_ne hji]
      exact (h.rows j).stable (hdraws.others j hji) (hother j hji)
  · by_cases hji : j = i
    · subst hji
      rw [Function.update_self]
      simp only [Function.update_self] at hp
      rw [hclient p hp]
      exact hok.perform htidy hperform
    · rw [Function.update_of_ne hji]
      simp only [Function.update_of_ne hji] at hp
      exact (h.client j p hp).stable (hother j hji)

end Apart

section System

variable {κ σ : Type} [DecidableEq κ] [LinearOrder σ] {hashtextextended : String → κ}
  {accepts : Text → Bool} {collation : String → σ} {nowV7 : ℕ → Uuid}
  {appends : AppendId → StreamWrites Any Text} {s t : Appending Any κ}
  {ids : AppendId → Set Uuid} {i : AppendId}

theorem step_apart (hinjective : Function.Injective hashtextextended)
    (hnow : Function.Injective nowV7) (h : Apart hashtextextended nowV7 s ids)
    (hsound : (table hashtextextended accepts collation nowV7).Sound (discipline hinjective) s)
    {l : Label AppendId Choice AppendId}
    (hstep : (system hashtextextended accepts collation nowV7 appends).step s l = some t) :
    ∃ ids, Apart hashtextextended nowV7 t ids := by
  have htidy : Tidy s.world.holder s.world.live := hsound.tidy
  cases Machine.step_cases hstep with
  | @start i n hwaiting =>
    refine ⟨ids,h.handedOut,h.rows,fun j p hp => ?_⟩
    by_cases hji : j = i
    · subst hji
      simp only [Function.update_self] at hp
      cases hp
      have hidle : ¬ s.world.live j := by
        have hclient := hsound.client j
        rwa [hwaiting] at hclient
      exact ⟨fun hlive => absurd hlive hidle,fun _ => appendEvents_opening (appends j)⟩
    · simp only [Function.update_of_ne hji] at hp
      exact h.client j p hp
  | ask hrunning hperform =>
    exact ⟨_,h.perform hnow htidy hrunning hperform fun p hp => by cases hp; rfl⟩
  | orphan hrunning hperform =>
    exact ⟨_,h.perform hnow htidy hrunning hperform fun p hp => nomatch hp⟩
  | @crash i p hrunning =>
    refine ⟨ids,h.handedOut,h.rows,fun j p hp => ?_⟩
    by_cases hji : j = i
    · subst hji
      simp only [Function.update_self] at hp
      cases hp
    · simp only [Function.update_of_ne hji] at hp
      exact h.client j p hp
  | @background k w hback =>
    have hmoves := (table hashtextextended accepts collation nowV7).background htidy hback
    obtain ⟨_,_,rfl⟩ := Option.map_eq_some_iff.mp hback
    refine ⟨ids,h.handedOut,fun j => ?_,fun j p hp => (h.client j p hp).stable (hmoves j)⟩
    by_cases hjk : j = k
    · subst hjk
      intro t ht
      rw [World.finish,HashMap.get?,AList.lookup_erase] at ht
      cases ht
    · refine (h.rows j).stable ?_ (hmoves j)
      rw [World.finish,HashMap.get?,HashMap.get?,AList.lookup_erase_ne hjk]

theorem reachable_apart (hinjective : Function.Injective hashtextextended)
    (hnow : Function.Injective nowV7)
    (h : Reachable (system hashtextextended accepts collation nowV7 appends) s) :
    ∃ ids, Apart hashtextextended nowV7 s ids := by
  induction h with
  | init hinit =>
    obtain ⟨⟨committed,drawn,hworld⟩,hwaiting⟩ := hinit
    refine ⟨fun _ => ∅,⟨fun _ _ hid => hid.elim,fun _ _ _ hid => hid.elim⟩,fun j t ht => ?_,
      fun j p hp => ?_⟩
    · rw [hworld] at ht
      cases ht
    · rw [hwaiting j] at hp
      cases hp
  | step hs _ hstep ih =>
    obtain ⟨ids,hapart⟩ := ih
    exact step_apart hinjective hnow hapart (reachable_sound hinjective hs) hstep

omit [DecidableEq κ] in
theorem not_contended (h : Apart hashtextextended nowV7 s ids) (hlive : s.world.live i = true)
    {eventId : Uuid} {entry : StreamWriteEntry Any Text} {currentMaxVersion : ℕ}
    {k : Answer (.insertRow eventId entry currentMaxVersion) →
      Program (Request Any) Answer (Except EventStoreError Unit)}
    (hrunning : s.client i = .running (.ask (.insertRow eventId entry currentMaxVersion) k))
    {row : Row Text} (hid : row.eventId = eventId)
    (hstream : row.streamId = entry.streamId.value) : s.world.contended i row = false := by
  obtain ⟨hown,hlock⟩ := ((h.client i _ hrunning).1 hlive).1
  have hlock : s.world.holder (.advisory (hashtextextended entry.streamId.value)) = some i := hlock
  rw [World.contended,List.any_eq_false]
  rintro ⟨j,t⟩ hmem hcontended
  obtain ⟨hne,hviolates⟩ := Bool.and_eq_true_iff.mp hcontended
  have hji : j ≠ i := of_decide_eq_true hne
  obtain ⟨old,hold,hequal⟩ := List.any_eq_true.mp hviolates
  obtain ⟨hoid,holock⟩ := h.rows j t (HashMap.mem_entries_iff.mp hmem) old hold
  rcases Bool.or_eq_true_iff.mp hequal with hequal | hequal
  · rw [of_decide_eq_true hequal,hid] at hoid
    exact hji (h.handedOut.apart j i eventId hoid hown)
  · rw [of_decide_eq_true (Bool.and_eq_true_iff.mp hequal).1,hstream,hlock] at holock
    exact hji (Option.some.inj holock).symm

variable (accepts collation nowV7) in
theorem perform_isSome {w : World κ} {q : Request Any} (hlive : w.live i = true)
    (hbegin : q ≠ .begin)
    (hfree : ∀ l, World.lock? hashtextextended q = some l → w.holder l = none ∨ w.holder l = some i)
    (hrow : ∀ eventId entry currentMaxVersion, q = .insertRow eventId entry currentMaxVersion →
      ∀ row, row.eventId = eventId → row.streamId = entry.streamId.value →
        w.contended i row = false) :
    (w.perform hashtextextended accepts collation nowV7 i q .ok).isSome := by
  obtain ⟨t,ht⟩ := Option.isSome_iff_exists.mp hlive
  obtain ⟨u,hgrant,htransactions⟩ : ∃ u, w.grant hashtextextended i q = some u ∧
      u.transactions = w.transactions := by
    unfold World.grant
    split
    · exact ⟨w,rfl,rfl⟩
    · rename_i l hl
      rw [if_pos (hfree l hl)]
      exact ⟨_,rfl,rfl⟩
  have hok : w.perform hashtextextended accepts collation nowV7 i q .ok =
      u.execute accepts collation nowV7 i t q := by
    have hbind : w.perform hashtextextended accepts collation nowV7 i q .ok =
        (w.transactions.get? i).bind fun t => (w.grant hashtextextended i q).bind fun w =>
          w.execute accepts collation nowV7 i t q := by
      cases q with
      | «begin» => exact absurd rfl hbegin
      | _ => rfl
    rw [hbind,ht,Option.bind_some,hgrant,Option.bind_some]
  rw [hok]
  cases q with
  | «begin» => exact absurd rfl hbegin
  | insertRow eventId entry currentMaxVersion =>
    simp only [World.execute]
    split
    · rfl
    · rename_i row numbered hnumber
      obtain ⟨hid,hstream⟩ := numberRow_eq hnumber
      have hcontended : u.contended i row = false := by
        have hw := hrow _ _ _ rfl row hid hstream
        unfold World.contended at hw ⊢
        rw [htransactions,hw]
      rw [hcontended]
      split <;> rfl
  | insertDelivery insertedEvents currentFrontier =>
    simp only [World.execute]
    split <;> rfl
  | _ => rfl

/-- The steps that carry open transactions on: the next statement is carried out, or the client has
ended and its transaction is rolled back. -/
def Forward (s : Appending Any κ) : Label AppendId Choice AppendId → Prop
  | .ask i c => c = .ok ∧ s.world.live i = true
  | .background i => ∀ q k, s.client i ≠ .running (.ask q k)
  | _ => False

theorem appends_go_on (hinjective : Function.Injective hashtextextended)
    (hnow : Function.Injective nowV7)
    (h : Reachable (system hashtextextended accepts collation nowV7 appends) s)
    (hlive : s.world.live i = true) :
    ∃ j l t, Relation.ReflTransGen
        ((table hashtextextended accepts collation nowV7).locks s).WaitsFor i j ∧
      (l = .ask j .ok ∨ l = .background j) ∧ Forward s l ∧
        (system hashtextextended accepts collation nowV7 appends).step s l = some t := by
  obtain ⟨ids,hapart⟩ := reachable_apart hinjective hnow h
  have hsound := reachable_sound hinjective h
  obtain ⟨j,hwaits,hlast⟩ := append_waits_end hinjective h i
  have hopen : s.world.live j = true := by
    rcases Relation.ReflTransGen.cases_tail hwaits with rfl | ⟨k,_,_,l,_,hholder⟩
    · exact hlive
    · exact hsound.tidy l j hholder
  by_cases hasks : ∃ q k, s.client j = .running (.ask q k)
  · obtain ⟨q,k,hrunning⟩ := hasks
    have hcareful := (hapart.client j _ hrunning).1 hopen
    have hbegin : q ≠ .begin := by
      rintro rfl
      exact hcareful.1
    have hfree : ∀ l, World.lock? hashtextextended q = some l →
        s.world.holder l = none ∨ s.world.holder l = some j := by
      intro l hl
      cases hholder : s.world.holder l with
      | none => exact .inl rfl
      | some k =>
        by_cases hjk : j = k
        · rw [hjk]
          exact .inr rfl
        · refine absurd ⟨hjk,l,?_,hholder⟩ (hlast k)
          simp only [LockTable.locks,hrunning]
          exact (if_pos hopen).trans hl
    obtain ⟨⟨a,w⟩,hperform⟩ := Option.isSome_iff_exists.mp
      (perform_isSome accepts collation nowV7 hopen hbegin hfree
        fun eventId entry currentMaxVersion hq row hid hstream => by
          subst hq
          exact not_contended hapart hopen hrunning hid hstream)
    refine ⟨j,.ask j .ok,⟨w,Function.update s.client j (.running (k a))⟩,hwaits,.inl rfl,
      ⟨rfl,hopen⟩,?_⟩
    simp only [system,Machine.system,Machine.step,hrunning,World.machine,hperform,Option.map_some]
  · obtain ⟨t,ht⟩ := Option.isSome_iff_exists.mp hopen
    refine ⟨j,.background j,⟨s.world.finish j,s.client⟩,hwaits,.inr rfl,
      fun q k hrunning => hasks ⟨q,k,hrunning⟩,?_⟩
    simp only [system,Machine.system,Machine.step,World.machine,World.rollback,ht,Option.map_some]

def opened (w : World κ) : Finset AppendId := w.transactions.keys.toFinset

omit [DecidableEq κ] in
@[simp] theorem mem_opened {w : World κ} : i ∈ opened w ↔ w.live i = true :=
  List.mem_toFinset.trans HashMap.get?_isSome_iff.symm

omit [DecidableEq κ] in
theorem opened_finish {w w' : World κ} (h : ∀ j, w'.live j = (w.finish i).live j) :
    opened w' = (opened w).erase i := by
  ext j
  rw [mem_opened,h,Finset.mem_erase,mem_opened]
  by_cases hji : j = i
  · simp [hji,World.live_finish_self]
  · simp [hji,World.live_finish_ne hji]

theorem forward_lowers {l : Label AppendId Choice AppendId} (hforward : Forward s l)
    (hstep : (system hashtextextended accepts collation nowV7 appends).step s l = some t) :
    Relation.CutExpand Next (toDo t (opened t.world)) (toDo s (opened s.world)) := by
  cases Machine.step_cases hstep with
  | start | orphan | crash => exact hforward.elim
  | @ask i c q k a w hrunning hperform =>
    obtain ⟨_,hlive⟩ := hforward
    have hothers : ∀ j, j ≠ i → Function.update s.client i (.running (k a)) j = s.client j :=
      fun j hji => Function.update_of_ne hji _ _
    have hgoes : (∀ j, w.live j = s.world.live j) ∨
        ∀ j, w.live j = (s.world.finish i).live j := by
      cases World.perform_effect hperform with
      | opens _ _ hclosed => exact absurd hlive hclosed
      | fails _ _ hsame => exact .inl hsame
      | goes _ _ _ _ _ _ hsame => exact .inl hsame
      | ends _ _ hends => exact .inr hends
    rcases hgoes with hsame | hends
    · have hopened : opened w = opened s.world := by
        ext j
        rw [mem_opened,mem_opened,hsame]
      simp only [hopened]
      refine toDo_step (mem_opened.mpr hlive) hothers ?_
      simp only [Function.update_self,hrunning]
      exact ⟨q,k,a,rfl,rfl⟩
    · simp only [opened_finish hends]
      exact toDo_end (mem_opened.mpr hlive) hothers
  | @background i w hback =>
    obtain ⟨transaction,htransaction,rfl⟩ := Option.map_eq_some_iff.mp hback
    simp only [opened_finish fun _ => rfl]
    refine toDo_end (mem_opened.mpr ?_) fun _ _ => rfl
    rw [World.live,htransaction]
    rfl

theorem appends_complete (hinjective : Function.Injective hashtextextended)
    (hnow : Function.Injective nowV7)
    (h : Reachable (system hashtextextended accepts collation nowV7 appends) s) :
    ∃ labels t,
      AllSteps (system hashtextextended accepts collation nowV7 appends) Forward s labels ∧
      exec (system hashtextextended accepts collation nowV7 appends) s labels = some t ∧
      ∀ i, t.world.live i = false := by
  refine exists_complete (μ := fun s => toDo s (opened s.world)) next_wellFounded.cutExpand
    (I := Reachable (system hashtextextended accepts collation nowV7 appends))
    (fun s h hopen => ?_) h
  obtain ⟨i,hi⟩ := not_forall.mp hopen
  obtain ⟨j,l,t,_,_,hforward,hstep⟩ :=
    appends_go_on hinjective hnow h (Bool.eq_true_of_not_eq_false hi)
  exact ⟨l,t,hforward,hstep,h.step trivial hstep,forward_lowers hforward hstep⟩

/-- Wherever a run stands, all open transactions can be brought to their ends without any statement
of theirs failing to get its locks: none has to be cancelled to free the others. No append waits for
a row that another one has locked or inserted, and whoever has a transaction open waits in the end
for one that can go forward. -/
theorem appends_finish (hinjective : Function.Injective hashtextextended)
    (hnow : Function.Injective nowV7)
    (h : Reachable (system hashtextextended accepts collation nowV7 appends) s) :
    (∃ labels t,
      AllSteps (system hashtextextended accepts collation nowV7 appends) Forward s labels ∧
      exec (system hashtextextended accepts collation nowV7 appends) s labels = some t ∧
      ∀ i, t.world.live i = false) ∧
    (∀ i j streamId streamVersion, i ≠ j →
      ((table hashtextextended accepts collation nowV7).locks s).requested i =
        some (.row streamId streamVersion) →
      s.world.holder (.row streamId streamVersion) ≠ some j) ∧
    (∀ i eventId entry currentMaxVersion k, s.world.live i = true →
      s.client i = .running (.ask (.insertRow eventId entry currentMaxVersion) k) →
      ∀ row : Row Text, row.eventId = eventId → row.streamId = entry.streamId.value →
        s.world.contended i row = false) ∧
    ∀ i, s.world.live i = true → ∃ j l t, Relation.ReflTransGen
        ((table hashtextextended accepts collation nowV7).locks s).WaitsFor i j ∧
      (l = .ask j .ok ∨ l = .background j) ∧ Forward s l ∧
        (system hashtextextended accepts collation nowV7 appends).step s l = some t := by
  obtain ⟨ids,hapart⟩ := reachable_apart hinjective hnow h
  refine ⟨appends_complete hinjective hnow h,fun i j streamId streamVersion hij hrequested => ?_,
    fun i eventId entry currentMaxVersion k hlive hrunning row hid hstream => ?_,fun i hlive => ?_⟩
  · exact row_not_contended hinjective h hij hrequested
  · exact not_contended hapart hlive hrunning hid hstream
  · exact appends_go_on hinjective hnow h hlive

end System

/-- The second append waits for the first one at the frontier, and the third one for the second. -/
theorem appends_finish_chain : WaitingChain.waiting.world.live 1 = true ∧
    WaitingChain.waiting.world.live 2 = true ∧
    (∃ labels t, AllSteps WaitingChain.blocked Forward WaitingChain.waiting labels ∧
      exec WaitingChain.blocked WaitingChain.waiting labels = some t ∧
      ∀ i, t.world.live i = false) ∧
    ∃ j l t, Relation.ReflTransGen
        ((table id (fun _ => true) id fun drawn => drawn).locks WaitingChain.waiting).WaitsFor 2 j ∧
      (l = .ask j .ok ∨ l = .background j) ∧ Forward WaitingChain.waiting l ∧
        WaitingChain.blocked.step WaitingChain.waiting l = some t := by
  have hreachable : Reachable WaitingChain.blocked WaitingChain.waiting :=
    Reachable.exec (.init ⟨⟨{},0,rfl⟩,fun _ => rfl⟩) (Option.some_get _).symm
  have hopen : WaitingChain.waiting.world.live 2 = true := by decide +kernel
  obtain ⟨hcomplete,-,-,hgoes⟩ :=
    appends_finish Function.injective_id (fun _ _ h => h) hreachable
  exact ⟨by decide +kernel,hopen,hcomplete,hgoes 2 hopen⟩

end AppendProgress
end EventCore
