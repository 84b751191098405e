import EventCore.Runs
import EventCore.SqliteAppends

/-! Appends to one SQLite file through any number of handles, one statement at a time: a mutex around
the connection of each handle, deferred transactions on snapshots of the file, and one write lock. -/
namespace EventCore
namespace SqliteRaces
open Runs SqliteStore

abbrev AppendId := ℕ
abbrev HandleId := ℕ

variable {Any Raw : Type}

/-- `snapshot` counts the commits that the transaction sees; a deferred transaction has none before
its first read. -/
structure Transaction (Raw : Type) where
  snapshot : Option ℕ := none
  rows : Table Raw := []

/-- Where an append stands: the statement that comes next, with what it needs. -/
inductive Phase (Raw : Type)
  | waiting
  | begin
  | check (transaction : Transaction Raw)
      (expectedVersions : List (Sigma fun _ : StreamId => StreamVersion))
  | insert (transaction : Transaction Raw) (chunks : List (Table Raw))
  | ended (result : Except EventStoreError Unit)
  | killed

def Phase.result? : Phase Raw → Option (Except EventStoreError Unit)
  | .ended result => some result
  | _ => none

/-- The file holds what was there before and what each committed append has added to it. -/
structure World (Raw : Type) where
  before : Table Raw := []
  commits : List (AppendId × Table Raw) := []
  phase : AppendId → Phase Raw := fun _ => .waiting
  mutex : HandleId → Option AppendId := fun _ => none
  writer : Option AppendId := none
  drawn : ℕ := 0

/-- A statement is executed, is refused because another connection holds the write lock, or fails
for a reason of its own. -/
inductive Choice
  | ok
  | busy
  | fail
  deriving DecidableEq

inductive Label
  | statement (i : AppendId) (c : Choice)
  | kill (handle : HandleId)

namespace World

def fileAt (w : World Raw) (n : ℕ) : Table Raw :=
  w.before ++ (w.commits.take n).flatMap Prod.snd

def file (w : World Raw) : Table Raw := w.fileAt w.commits.length

def go (w : World Raw) (i : AppendId) (phase : Phase Raw) : World Raw :=
  { w with phase := Function.update w.phase i phase }

/-- The end of the closure drops the transaction, which rolls back what is not committed, and then
the guard of the connection. -/
def finish (w : World Raw) (handle : HandleId) (i : AppendId) (phase : Phase Raw) : World Raw :=
  { w.go i phase with
    mutex := Function.update w.mutex handle none
    writer := if w.writer = some i then none else w.writer }

variable (appends : AppendId → StreamWrites Any Raw) (handle : AppendId → HandleId)
  (nowV7 : ℕ → Uuid)

def fail (w : World Raw) (i : AppendId) (e : EventStoreError) : World Raw :=
  w.finish (handle i) i (.ended (.error e))

def commit (w : World Raw) (i : AppendId) (rows : Table Raw) : World Raw :=
  { w.finish (handle i) i (.ended (.ok ())) with commits := w.commits ++ [(i,rows)] }

/-- A write needs the write lock, and with it the newest snapshot: on an older one it fails. -/
def insertChunk (w : World Raw) (i : AppendId) (transaction : Transaction Raw)
    (chunk : Table Raw) (chunks : List (Table Raw)) : Option (World Raw) :=
  let snapshot := transaction.snapshot.getD w.commits.length
  if w.writer = none ∨ w.writer = some i then
    if snapshot = w.commits.length then
      match insertRows (w.fileAt snapshot ++ transaction.rows) chunk with
      | .error e => some (w.fail handle i e)
      | .ok _ =>
        let transaction : Transaction Raw := ⟨some snapshot,transaction.rows ++ chunk⟩
        some { w.go i (.insert transaction chunks) with writer := some i }
    else some (w.fail handle i (.storeFailure .appendEvents))
  else none

/-- The next statement of `append_events`. The busy handler may wait for the write lock or not; the
rows are built between the last check and the first insert. -/
def statement (w : World Raw) (i : AppendId) (c : Choice) : Option (World Raw) :=
  match w.phase i,c with
  | .waiting,.ok =>
    match (appends i).entries with
    | [] => some (w.go i (.ended (.ok ())))
    | _ :: _ =>
      if w.mutex (handle i) = none then
        some { w.go i .begin with mutex := Function.update w.mutex (handle i) (some i) }
      else none
  | .begin,.ok => some (w.go i (.check {} (appends i).expectedVersions.entries))
  | .begin,.fail => some (w.fail handle i (.storeFailure .beginTransaction))
  | .check transaction (⟨streamId,expectedVersion⟩ :: expectedVersions),.ok =>
    let snapshot := transaction.snapshot.getD w.commits.length
    let current := currentVersion (w.fileAt snapshot) streamId.value
    if current ≠ expectedVersion then
      some (w.fail handle i (.versionConflict streamId expectedVersion current))
    else some (w.go i (.check { transaction with snapshot := some snapshot } expectedVersions))
  | .check _ (_ :: _),.fail => some (w.fail handle i (.storeFailure .appendEvents))
  | .check transaction [],.ok =>
    let drawn := w.drawn + (appends i).entries.length
    match assignRows nowV7 w.drawn (appends i).expectedVersions (appends i).entries with
    | .error e => some (w.fail handle i e)
    | .ok rows =>
      some { w.go i (.insert transaction (rows.toChunks maxRowsPerInsert)) with drawn }
  | .insert transaction (chunk :: chunks),.ok => w.insertChunk handle i transaction chunk chunks
  | .insert _ (_ :: _),.busy =>
    if w.writer = none ∨ w.writer = some i then none
    else some (w.fail handle i (.storeFailure .appendEvents))
  | .insert _ (_ :: _),.fail => some (w.fail handle i (.storeFailure .appendEvents))
  | .insert transaction [],.ok =>
    some (w.commit handle i transaction.rows)
  | .insert _ [],.fail => some (w.fail handle i (.storeFailure .commitTransaction))
  | _,_ => none

/-- The process of a handle may die at any time; its locks die with it. -/
def step (w : World Raw) : Label → Option (World Raw)
  | .statement i c => w.statement appends handle nowV7 i c
  | .kill handle => (w.mutex handle).map fun i => w.finish handle i .killed

end World

/-- Any appends through any handles, in any interleaving, on any file. -/
def system (appends : AppendId → StreamWrites Any Raw) (handle : AppendId → HandleId)
    (nowV7 : ℕ → Uuid) : System (World Raw) Label where
  init w := ∃ before drawn, w = { before, drawn }
  step := World.step appends handle nowV7

def own (i : AppendId) (w : World Raw) : List (Table Raw) :=
  (w.commits.filter fun commit => commit.1 = i).map Prod.snd

section Appends

variable (appends : AppendId → StreamWrites Any Raw) (handle : AppendId → HandleId)
  (nowV7 : ℕ → Uuid)

/-- Every stream that an append has registered is at the version it expects. -/
def Current (i : AppendId) (table : Table Raw) : Prop :=
  ∀ p ∈ (appends i).expectedVersions.entries, currentVersion table p.1.value = p.2

instance (i : AppendId) (table : Table Raw) : Decidable (Current appends i table) :=
  inferInstanceAs (Decidable (∀ p ∈ (appends i).expectedVersions.entries, _))

/-- The appends that succeed come one after the other: each of them adds to the file as all before
it have left it, at the versions it expects and just as it does alone. One that fails adds nothing. -/
structure NoLostUpdate (w : World Raw) : Prop where
  applied : ∀ n i rows, w.commits[n]? = some (i,rows) → Current appends i (w.fileAt n) ∧
    ∃ nowV7, appendChunked nowV7 (w.fileAt n) (appends i) = .ok (w.fileAt n ++ rows)
  succeeded : ∀ i, w.phase i = .ended (.ok ()) → (appends i).entries ≠ [] → ∃ rows, own i w = [rows]
  failed : ∀ i e, w.phase i = .ended (.error e) → own i w = []

def Conflict (i : AppendId) (e : EventStoreError) : Prop :=
  ∃ p ∈ (appends i).expectedVersions.entries, ∃ actual, e = .versionConflict p.1 p.2 actual

/-- An append that comes to an end with an error, though not by a failure of its own, while a stream
that it has registered has moved on, reports a conflict. -/
def ReportsConflict (w : World Raw) : Label → Prop
  | .statement i c => c ≠ .fail → ¬ Current appends i w.file → ∀ w' e,
      w.statement appends handle nowV7 i c = some w' → w'.phase i = .ended (.error e) →
        Conflict appends i e
  | .kill _ => True

/-- An append is at an insert and has not yet got the write lock. -/
def firstInsert (w : World Raw) (i : AppendId) : Bool :=
  match w.phase i with
  | .insert _ (_ :: _) => w.writer ≠ some i
  | _ => false

/-- No stream that an append has registered has moved on when it comes to its first insert. -/
def Unraced (w : World Raw) : Label → Prop
  | .statement i c => c ≠ .fail → firstInsert w i = true → Current appends i w.file
  | .kill _ => True

instance (w : World Raw) : ∀ l, Decidable (Unraced appends w l)
  | .statement i c => inferInstanceAs (Decidable (c ≠ .fail → firstInsert w i = true → _))
  | .kill _ => isTrue trivial

/-- Before the first insert: `checked` streams are current in the snapshot. -/
structure Checking (w : World Raw) (i : AppendId) (transaction : Transaction Raw)
    (checked left : List (Sigma fun _ : StreamId => StreamVersion)) : Prop where
  whole : checked ++ left = (appends i).expectedVersions.entries
  rows : transaction.rows = []
  unread : transaction.snapshot = none → checked = []
  read : ∀ n, transaction.snapshot = some n → n ≤ w.commits.length ∧
    ∀ p ∈ checked, currentVersion (w.fileAt n) p.1.value = p.2

/-- After the checks: a transaction that has the write lock is on the newest snapshot. -/
structure Inserting (w : World Raw) (i : AppendId) (transaction : Transaction Raw)
    (chunks : List (Table Raw)) (n : ℕ) : Prop where
  snapshot : transaction.snapshot = some n
  bound : n ≤ w.commits.length
  current : Current appends i (w.fileAt n)
  assigned : ∃ drawn, assignRows nowV7 drawn (appends i).expectedVersions (appends i).entries =
    .ok (transaction.rows ++ chunks.flatten)
  inserted : insertRows (w.fileAt n) transaction.rows = .ok (w.fileAt n ++ transaction.rows)
  newest : w.writer = some i → n = w.commits.length
  unwritten : w.writer ≠ some i → transaction.rows = [] ∧ chunks ≠ []

def PhaseOk (w : World Raw) (i : AppendId) : Phase Raw → Prop
  | .waiting => w.writer ≠ some i ∧ own i w = []
  | .begin => w.writer ≠ some i ∧ own i w = [] ∧ (appends i).entries ≠ []
  | .check transaction left => w.writer ≠ some i ∧ own i w = [] ∧ (appends i).entries ≠ [] ∧
      ∃ checked, Checking appends w i transaction checked left
  | .insert transaction chunks => own i w = [] ∧ (appends i).entries ≠ [] ∧
      ∃ n, Inserting appends nowV7 w i transaction chunks n
  | .ended (.ok _) => w.writer ≠ some i ∧ ((appends i).entries ≠ [] → ∃ rows, own i w = [rows])
  | .ended (.error _) => w.writer ≠ some i ∧ own i w = []
  | .killed => w.writer ≠ some i

structure Sound (w : World Raw) : Prop where
  applied : ∀ n i rows, w.commits[n]? = some (i,rows) → Current appends i (w.fileAt n) ∧
    ∃ nowV7, appendChunked nowV7 (w.fileAt n) (appends i) = .ok (w.fileAt n ++ rows)
  phase : ∀ i, PhaseOk appends nowV7 w i (w.phase i)

structure Keeps (w w' : World Raw) (i : AppendId) : Prop where
  before : w'.before = w.before
  commits : ∃ added, w'.commits = w.commits ++ added ∧ (∀ commit ∈ added, commit.1 ≠ i) ∧
    (w.writer = some i → added = [])
  writer : w'.writer = some i ↔ w.writer = some i

inductive Executes (w : World Raw) (i : AppendId) : Choice → World Raw → Prop
  | nothing (hphase : w.phase i = .waiting) (hentries : (appends i).entries = []) :
      Executes w i .ok (w.go i (.ended (.ok ())))
  | enter (hphase : w.phase i = .waiting) (hentries : (appends i).entries ≠ []) :
      Executes w i .ok { w.go i .begin with mutex := Function.update w.mutex (handle i) (some i) }
  | started (hphase : w.phase i = .begin) :
      Executes w i .ok (w.go i (.check {} (appends i).expectedVersions.entries))
  | current {transaction : Transaction Raw} {p : Sigma fun _ : StreamId => StreamVersion}
      {left : List (Sigma fun _ : StreamId => StreamVersion)}
      (hphase : w.phase i = .check transaction (p :: left))
      (hcurrent : currentVersion (w.fileAt (transaction.snapshot.getD w.commits.length))
        p.1.value = p.2) :
      Executes w i .ok (w.go i (.check
        { transaction with snapshot := some (transaction.snapshot.getD w.commits.length) } left))
  | conflict {transaction : Transaction Raw} {p : Sigma fun _ : StreamId => StreamVersion}
      {left : List (Sigma fun _ : StreamId => StreamVersion)} {actual : StreamVersion}
      (hphase : w.phase i = .check transaction (p :: left)) :
      Executes w i .ok (w.fail handle i (.versionConflict p.1 p.2 actual))
  | checked {transaction : Transaction Raw} {rows : Table Raw}
      (hphase : w.phase i = .check transaction [])
      (hrows : assignRows nowV7 w.drawn (appends i).expectedVersions (appends i).entries =
        .ok rows) :
      Executes w i .ok { w.go i (.insert transaction (rows.toChunks maxRowsPerInsert)) with
        drawn := w.drawn + (appends i).entries.length }
  | unassigned {transaction : Transaction Raw} {e : EventStoreError}
      (hphase : w.phase i = .check transaction [])
      (he : assignRows nowV7 w.drawn (appends i).expectedVersions (appends i).entries =
        .error e) :
      Executes w i .ok (w.fail handle i e)
  | insert {transaction : Transaction Raw} {chunk : Table Raw} {chunks : List (Table Raw)}
      {w' : World Raw} (hphase : w.phase i = .insert transaction (chunk :: chunks))
      (hinsert : w.insertChunk handle i transaction chunk chunks = some w') :
      Executes w i .ok w'
  | commit {transaction : Transaction Raw} (hphase : w.phase i = .insert transaction []) :
      Executes w i .ok (w.commit handle i transaction.rows)
  | locked {transaction : Transaction Raw} {chunk : Table Raw} {chunks : List (Table Raw)}
      (hphase : w.phase i = .insert transaction (chunk :: chunks)) :
      Executes w i .busy (w.fail handle i (.storeFailure .appendEvents))
  | fail {operation : Operation} (hphase : w.phase i = .begin ∨
        (∃ transaction left, w.phase i = .check transaction left) ∨
        ∃ transaction chunks, w.phase i = .insert transaction chunks) :
      Executes w i .fail (w.fail handle i (.storeFailure operation))

section Steps

variable {appends handle nowV7} {w w' : World Raw} {i j : AppendId} {phase : Phase Raw}

theorem statement_cases {c : Choice} (hstep : w.statement appends handle nowV7 i c = some w') :
    Executes appends handle nowV7 w i c w' := by
  unfold World.statement at hstep
  split at hstep
  · rename_i hphase
    split at hstep
    · rename_i hentries
      cases hstep
      exact .nothing hphase hentries
    · rename_i hentries
      split_ifs at hstep
      cases hstep
      exact .enter hphase (by simp [hentries])
  · rename_i hphase
    cases hstep
    exact .started hphase
  · rename_i hphase
    cases hstep
    exact .fail (.inl hphase)
  · rename_i hphase
    dsimp only at hstep
    split_ifs at hstep with hcurrent
    · cases hstep
      exact .conflict hphase
    · cases hstep
      exact .current hphase (not_not.mp hcurrent)
  · rename_i hphase
    cases hstep
    exact .fail (.inr (.inl ⟨_,_,hphase⟩))
  · rename_i hphase
    dsimp only at hstep
    split at hstep
    · rename_i he
      cases hstep
      exact .unassigned hphase he
    · rename_i hrows
      cases hstep
      exact .checked hphase hrows
  · rename_i hphase
    exact .insert hphase hstep
  · rename_i hphase
    split_ifs at hstep
    cases hstep
    exact .locked hphase
  · rename_i hphase
    cases hstep
    exact .fail (.inr (.inr ⟨_,_,hphase⟩))
  · rename_i hphase
    cases hstep
    exact .commit hphase
  · rename_i hphase
    cases hstep
    exact .fail (.inr (.inr ⟨_,_,hphase⟩))
  · cases hstep

theorem fileAt_append {added : List (AppendId × Table Raw)} {n : ℕ}
    (hbefore : w'.before = w.before) (hcommits : w'.commits = w.commits ++ added)
    (hn : n ≤ w.commits.length) : w'.fileAt n = w.fileAt n := by
  rw [World.fileAt,World.fileAt,hbefore,hcommits,List.take_append_of_le_length hn]

theorem own_append {added : List (AppendId × Table Raw)}
    (hcommits : w'.commits = w.commits ++ added) (hadded : ∀ commit ∈ added, commit.1 ≠ i) :
    own i w' = own i w := by
  have hnone : added.filter (fun commit => commit.1 = i) = [] :=
    List.filter_eq_nil_iff.mpr fun commit hmem he => hadded commit hmem (of_decide_eq_true he)
  rw [own,own,hcommits,List.filter_append,hnone,List.append_nil]

theorem PhaseOk.stable (h : PhaseOk appends nowV7 w i phase) (hkeeps : Keeps w w' i) :
    PhaseOk appends nowV7 w' i phase := by
  obtain ⟨added,hcommits,hothers,hwriting⟩ := hkeeps.commits
  have hown : own i w' = own i w := own_append hcommits hothers
  have hwriter : w.writer ≠ some i → w'.writer ≠ some i := fun hne he => hne (hkeeps.writer.mp he)
  have hfile : ∀ n ≤ w.commits.length, w'.fileAt n = w.fileAt n := fun n =>
    fileAt_append hkeeps.before hcommits
  have hlength : w.commits.length ≤ w'.commits.length := by simp [hcommits]
  match phase with
  | .waiting => exact ⟨hwriter h.1,hown.trans h.2⟩
  | .begin => exact ⟨hwriter h.1,hown.trans h.2.1,h.2.2⟩
  | .check transaction left =>
    obtain ⟨hw,ho,hentries,checked,hchecking⟩ := h
    refine ⟨hwriter hw,hown.trans ho,hentries,checked,hchecking.whole,hchecking.rows,
      hchecking.unread,fun n hn => ?_⟩
    obtain ⟨hbound,hcurrent⟩ := hchecking.read n hn
    rw [hfile n hbound]
    exact ⟨hbound.trans hlength,hcurrent⟩
  | .insert transaction chunks =>
    obtain ⟨ho,hentries,n,hinserting⟩ := h
    refine ⟨hown.trans ho,hentries,n,hinserting.snapshot,hinserting.bound.trans hlength,?_,
      hinserting.assigned,?_,fun hw => ?_,fun hw => ?_⟩
    · rw [hfile n hinserting.bound]
      exact hinserting.current
    · rw [hfile n hinserting.bound]
      exact hinserting.inserted
    · have hw' := hkeeps.writer.mp hw
      rw [hinserting.newest hw',hcommits,hwriting hw',List.append_nil]
    · exact hinserting.unwritten fun he => hw (hkeeps.writer.mpr he)
  | .ended (.ok _) =>
    refine ⟨hwriter h.1,fun hentries => ?_⟩
    rw [hown]
    exact h.2 hentries
  | .ended (.error _) => exact ⟨hwriter h.1,hown.trans h.2⟩
  | .killed => exact hwriter h

theorem Keeps.of_eq (hbefore : w'.before = w.before) (hcommits : w'.commits = w.commits)
    (hwriter : w'.writer = some i ↔ w.writer = some i) : Keeps w w' i :=
  ⟨hbefore,⟨[],by rw [hcommits,List.append_nil],by simp,fun _ => rfl⟩,hwriter⟩

theorem Sound.move (h : Sound appends nowV7 w) (hbefore : w'.before = w.before)
    (hcommits : w'.commits = w.commits) (hphase : w'.phase = Function.update w.phase i phase)
    (hwriter : ∀ j, j ≠ i → (w'.writer = some j ↔ w.writer = some j))
    (hi : PhaseOk appends nowV7 w' i phase) : Sound appends nowV7 w' := by
  have hadded : w'.commits = w.commits ++ [] := by rw [hcommits,List.append_nil]
  constructor
  · intro n j rows hn
    rw [hcommits] at hn
    have hlt : n < w.commits.length := (List.getElem?_eq_some_iff.mp hn).1
    rw [fileAt_append hbefore hadded hlt.le]
    exact h.applied n j rows hn
  · intro j
    rw [hphase]
    by_cases hji : j = i
    · subst hji
      rwa [Function.update_self]
    · rw [Function.update_of_ne hji]
      exact (h.phase j).stable (.of_eq hbefore hcommits (hwriter j hji))

variable (phase) in
theorem finish_writer_ne (h : HandleId) : (w.finish h i phase).writer ≠ some i := by
  simp only [World.finish,World.go]
  split_ifs with hi
  · simp
  · exact hi

variable (phase) in
theorem finish_writer_iff (h : HandleId) (hji : j ≠ i) :
    (w.finish h i phase).writer = some j ↔ w.writer = some j := by
  simp only [World.finish,World.go]
  split_ifs with hi
  · simp [hi,Ne.symm hji]
  · rfl

theorem Sound.fail (h : Sound appends nowV7 w) (hown : own i w = []) (e : EventStoreError) :
    Sound appends nowV7 (w.fail handle i e) :=
  h.move rfl rfl rfl (fun _ hji => finish_writer_iff _ _ hji) ⟨finish_writer_ne _ _,hown⟩

theorem Sound.go (h : Sound appends nowV7 w) (hi : PhaseOk appends nowV7 w i phase) :
    Sound appends nowV7 (w.go i phase) :=
  h.move rfl rfl rfl (fun _ _ => Iff.rfl) (hi.stable (.of_eq rfl rfl Iff.rfl))

theorem assignRows_of_declared (nowV7 : ℕ → Uuid) {entries : List (StreamWriteEntry Any Raw)}
    (drawn : ℕ) {versions : HashMap StreamId StreamVersion}
    (h : ∀ e ∈ entries, e.streamId ∈ versions) :
    ∃ rows, assignRows nowV7 drawn versions entries = .ok rows ∧ rows.length = entries.length := by
  induction entries generalizing drawn versions with
  | nil => exact ⟨[],rfl,rfl⟩
  | cons entry entries ih =>
    obtain ⟨hentry,hentries⟩ := List.forall_mem_cons.mp h
    obtain ⟨version,hversion⟩ := HashMap.exists_of_mem hentry
    have hdeclared : ∀ e ∈ entries, e.streamId ∈ versions.insert entry.streamId (version+1) :=
      fun e he => (AList.mem_insert _).mpr (.inr (hentries e he))
    obtain ⟨rows,hrows,hlength⟩ := ih (drawn+1) hdeclared
    refine ⟨⟨nowV7 drawn,entry.streamId.value,version+1,entry.eventType,entry.eventData⟩ :: rows,
      ?_,by simp [hlength]⟩
    simp only [assignRows,hversion,hrows]
    rfl

theorem Checking.next {transaction : Transaction Raw}
    {checked left : List (Sigma fun _ : StreamId => StreamVersion)}
    {p : Sigma fun _ : StreamId => StreamVersion}
    (h : Checking appends w i transaction checked (p :: left))
    (hcurrent : currentVersion (w.fileAt (transaction.snapshot.getD w.commits.length)) p.1.value =
      p.2) :
    Checking appends w i
      { transaction with snapshot := some (transaction.snapshot.getD w.commits.length) }
      (checked ++ [p]) left := by
  refine ⟨?_,h.rows,fun hnone => (nomatch hnone),fun n hn => ?_⟩
  · rw [← h.whole,List.append_assoc,List.singleton_append]
  · obtain rfl := Option.some.inj hn
    cases hsnapshot : transaction.snapshot with
    | none =>
      rw [hsnapshot] at hcurrent
      rw [h.unread hsnapshot]
      refine ⟨le_rfl,fun q hq => ?_⟩
      rw [List.mem_singleton.mp hq]
      exact hcurrent
    | some n =>
      rw [hsnapshot] at hcurrent
      obtain ⟨hbound,hchecked⟩ := h.read n hsnapshot
      refine ⟨hbound,fun q hq => ?_⟩
      rcases List.mem_append.mp hq with hq | hq
      · exact hchecked q hq
      · rw [List.mem_singleton.mp hq]
        exact hcurrent

theorem insertChunk_sound (h : Sound appends nowV7 w) {transaction : Transaction Raw}
    {chunk : Table Raw} {chunks : List (Table Raw)}
    (hi : PhaseOk appends nowV7 w i (.insert transaction (chunk :: chunks)))
    (hstep : w.insertChunk handle i transaction chunk chunks = some w') :
    Sound appends nowV7 w' := by
  obtain ⟨hown,hentries,n,hinserting⟩ := hi
  simp only [World.insertChunk,hinserting.snapshot,Option.getD_some] at hstep
  split_ifs at hstep with hfree hnewest
  · cases hinsert : insertRows (w.fileAt n ++ transaction.rows) chunk with
    | error e =>
      rw [hinsert] at hstep
      obtain rfl := Option.some.inj hstep
      exact h.fail hown e
    | ok table =>
      rw [hinsert] at hstep
      obtain rfl := Option.some.inj hstep
      refine h.move rfl rfl rfl (fun j hji => ?_) ⟨hown,hentries,n,rfl,hinserting.bound,
        hinserting.current,?_,?_,fun _ => hnewest,fun hw => absurd rfl hw⟩
      · rcases hfree with hnone | hself
        · simp [hnone,Ne.symm hji]
        · simp [hself]
      · obtain ⟨drawn,hassigned⟩ := hinserting.assigned
        refine ⟨drawn,?_⟩
        rw [hassigned,List.flatten_cons,List.append_assoc]
      · show insertRows (w.fileAt n) (transaction.rows ++ chunk) = _
        rw [insertRows_append,hinserting.inserted]
        simp only [hinsert,insertRows_eq_ok hinsert,List.append_assoc]
        rfl
  · obtain rfl := Option.some.inj hstep
    exact h.fail hown _

theorem assignRows_shift (nowV7 : ℕ → Uuid) (first drawn : ℕ)
    (versions : HashMap StreamId StreamVersion) (entries : List (StreamWriteEntry Any Raw)) :
    assignRows (fun n => nowV7 (first+n)) drawn versions entries =
      assignRows nowV7 (first+drawn) versions entries := by
  induction entries generalizing drawn versions with
  | nil => rfl
  | cons entry entries ih =>
    simp only [assignRows]
    cases versions.get? entry.streamId with
    | none => rfl
    | some version =>
      simp only [ih]
      rfl

theorem Inserting.appended {transaction : Transaction Raw} {n : ℕ}
    (h : Inserting appends nowV7 w i transaction [] n) (hentries : (appends i).entries ≠ []) :
    ∃ nowV7, appendChunked nowV7 (w.fileAt n) (appends i) =
      .ok (w.fileAt n ++ transaction.rows) := by
  obtain ⟨drawn,hassigned⟩ := h.assigned
  refine ⟨fun n => nowV7 (drawn+n),?_⟩
  have hrows := assignRows_shift nowV7 drawn 0 (appends i).expectedVersions (appends i).entries
  rw [Nat.add_zero,hassigned,List.flatten_nil,List.append_nil] at hrows
  have hcheck : checkExpectedVersions (fun s => currentVersion (w.fileAt n) s.value)
      (appends i).expectedVersions.entries = .ok () := checkExpectedVersions_eq_ok.mpr h.current
  rw [appendChunked_eq,appendEvents]
  cases hcases : (appends i).entries with
  | nil => exact absurd hcases hentries
  | cons entry entries =>
    rw [hcases] at hrows
    simp only [hcheck,hrows,h.inserted]

theorem commit_sound (h : Sound appends nowV7 w) {transaction : Transaction Raw}
    (hi : PhaseOk appends nowV7 w i (.insert transaction [])) :
    Sound appends nowV7 (w.commit handle i transaction.rows) := by
  obtain ⟨hown,hentries,n,hinserting⟩ := hi
  have hwriter : w.writer = some i := by
    by_contra hw
    exact (hinserting.unwritten hw).2 rfl
  have hnewest := hinserting.newest hwriter
  have hcommits : (w.commit handle i transaction.rows).commits =
      w.commits ++ [(i,transaction.rows)] := rfl
  have hfile : ∀ m ≤ w.commits.length, (w.commit handle i transaction.rows).fileAt m = w.fileAt m :=
    fun m => fileAt_append rfl hcommits
  constructor
  · intro m j rows hm
    rw [hcommits,List.getElem?_append] at hm
    split_ifs at hm with hlt
    · rw [hfile m hlt.le]
      exact h.applied m j rows hm
    · obtain rfl : m = w.commits.length := by
        have hlength := (List.getElem?_eq_some_iff.mp hm).1
        simp only [List.length_singleton] at hlength
        omega
      simp only [Nat.sub_self,List.getElem?_cons_zero,Option.some.injEq,Prod.mk.injEq] at hm
      obtain ⟨rfl,rfl⟩ := hm
      rw [hfile _ le_rfl,← hnewest]
      exact ⟨hinserting.current,hinserting.appended hentries⟩
  · intro j
    by_cases hji : j = i
    · subst hji
      have hphase : (w.commit handle j transaction.rows).phase j = .ended (.ok ()) :=
        Function.update_self _ _ _
      have hwriter' : (w.commit handle j transaction.rows).writer ≠ some j :=
        finish_writer_ne (.ended (.ok ())) (handle j)
      have hfilter : (w.commits.filter fun commit => commit.1 = j).map Prod.snd = [] := hown
      rw [hphase]
      refine ⟨hwriter',fun _ => ⟨transaction.rows,?_⟩⟩
      simp [own,hcommits,List.map_eq_nil_iff.mp hfilter]
    · have hphase : (w.commit handle i transaction.rows).phase j = w.phase j :=
        Function.update_of_ne hji _ _
      have hwriter' : (w.commit handle i transaction.rows).writer = some j ↔ w.writer = some j :=
        finish_writer_iff (.ended (.ok ())) (handle i) hji
      rw [hphase]
      refine (h.phase j).stable ⟨rfl,⟨_,hcommits,?_,fun hw => ?_⟩,hwriter'⟩
      · intro commit hmem
        rw [List.mem_singleton.mp hmem]
        exact Ne.symm hji
      · rw [hwriter] at hw
        exact absurd (Option.some.inj hw).symm hji

theorem checked_sound (h : Sound appends nowV7 w) {transaction : Transaction Raw}
    (hphase : w.phase i = .check transaction []) {rows : Table Raw} {drawn : ℕ}
    (hrows : assignRows nowV7 w.drawn (appends i).expectedVersions (appends i).entries = .ok rows) :
    Sound appends nowV7
      { w.go i (.insert transaction (rows.toChunks maxRowsPerInsert)) with drawn := drawn } := by
  have hi := h.phase i
  rw [hphase] at hi
  obtain ⟨hwriter,hown,hentries,checked,hchecking⟩ := hi
  have hwhole := hchecking.whole
  rw [List.append_nil] at hwhole
  obtain ⟨entry,hentry⟩ := List.exists_mem_of_ne_nil _ hentries
  obtain ⟨version,hversion⟩ := HashMap.exists_of_mem ((appends i).declared entry hentry)
  have hchecked : checked ≠ [] := by
    rw [hwhole]
    exact List.ne_nil_of_mem (HashMap.mem_entries_iff.mpr hversion)
  obtain ⟨n,hsnapshot⟩ : ∃ n, transaction.snapshot = some n :=
    Option.ne_none_iff_exists'.mp fun hnone => hchecked (hchecking.unread hnone)
  obtain ⟨hbound,hcurrent⟩ := hchecking.read n hsnapshot
  rw [hwhole] at hcurrent
  have hchunks : rows.toChunks maxRowsPerInsert ≠ [] := by
    intro hnil
    have hflatten := flatten_toChunks maxRowsPerInsert rows
    rw [hnil,List.flatten_nil] at hflatten
    obtain ⟨rows',hrows',hlength⟩ := assignRows_of_declared nowV7 w.drawn (appends i).declared
    obtain rfl := Except.ok.inj (hrows.symm.trans hrows')
    rw [← hflatten] at hlength
    exact hentries (List.length_eq_zero_iff.mp hlength.symm)
  refine h.move rfl rfl rfl (fun _ _ => Iff.rfl) ⟨hown,hentries,n,hsnapshot,hbound,hcurrent,
    ⟨w.drawn,?_⟩,?_,fun hw => absurd hw hwriter,fun _ => ⟨hchecking.rows,hchunks⟩⟩
  · rw [hrows,hchecking.rows,flatten_toChunks,List.nil_append]
  · rw [hchecking.rows,List.append_nil]
    rfl

theorem Sound.own_eq_nil (h : Sound appends nowV7 w) (hphase : w.phase i = .begin ∨
    (∃ transaction left, w.phase i = .check transaction left) ∨
    ∃ transaction chunks, w.phase i = .insert transaction chunks) : own i w = [] := by
  have hi := h.phase i
  rcases hphase with hphase | ⟨_,_,hphase⟩ | ⟨_,_,hphase⟩
  · rw [hphase] at hi
    exact hi.2.1
  · rw [hphase] at hi
    exact hi.2.1
  · rw [hphase] at hi
    exact hi.1

theorem statement_sound (h : Sound appends nowV7 w) {c : Choice}
    (hstep : w.statement appends handle nowV7 i c = some w') : Sound appends nowV7 w' := by
  have hi := h.phase i
  cases statement_cases hstep with
  | nothing hphase hentries =>
    rw [hphase] at hi
    exact h.go ⟨hi.1,fun hne => absurd hentries hne⟩
  | enter hphase hentries =>
    rw [hphase] at hi
    exact h.move rfl rfl rfl (fun _ _ => Iff.rfl) ⟨hi.1,hi.2,hentries⟩
  | started hphase =>
    rw [hphase] at hi
    exact h.go ⟨hi.1,hi.2.1,hi.2.2,[],rfl,rfl,fun _ => rfl,fun _ hn => nomatch hn⟩
  | current hphase hcurrent =>
    rw [hphase] at hi
    obtain ⟨hwriter,hown,hentries,checked,hchecking⟩ := hi
    exact h.go ⟨hwriter,hown,hentries,_,hchecking.next hcurrent⟩
  | conflict hphase => exact h.fail (h.own_eq_nil (.inr (.inl ⟨_,_,hphase⟩))) _
  | checked hphase hrows => exact checked_sound h hphase hrows
  | unassigned hphase he => exact h.fail (h.own_eq_nil (.inr (.inl ⟨_,_,hphase⟩))) _
  | insert hphase hinsert =>
    rw [hphase] at hi
    exact insertChunk_sound h hi hinsert
  | commit hphase =>
    rw [hphase] at hi
    exact commit_sound h hi
  | locked hphase => exact h.fail (h.own_eq_nil (.inr (.inr ⟨_,_,hphase⟩))) _
  | fail hphase => exact h.fail (h.own_eq_nil hphase) _

theorem step_sound (h : Sound appends nowV7 w) {l : Label}
    (hstep : w.step appends handle nowV7 l = some w') : Sound appends nowV7 w' := by
  cases l with
  | statement i c => exact statement_sound h hstep
  | kill k =>
    obtain ⟨i,_,rfl⟩ := Option.map_eq_some_iff.mp hstep
    exact h.move rfl rfl rfl (fun _ hji => finish_writer_iff _ _ hji) (finish_writer_ne _ _)

theorem initial_sound (before : Table Raw) (drawn : ℕ) :
    Sound appends nowV7 { before, drawn } :=
  ⟨fun n i rows hn => by simp at hn,fun i => ⟨by simp,rfl⟩⟩

theorem Sound.noLostUpdate (h : Sound appends nowV7 w) : NoLostUpdate appends w := by
  refine ⟨h.applied,fun i hi hentries => ?_,fun i e hi => ?_⟩
  · have hphase := h.phase i
    rw [hi] at hphase
    exact hphase.2 hentries
  · have hphase := h.phase i
    rw [hi] at hphase
    exact hphase.2

theorem phase_go : (w.go i phase).phase i = phase := Function.update_self _ _ _

theorem phase_fail (e : EventStoreError) : (w.fail handle i e).phase i = .ended (.error e) :=
  Function.update_self _ _ _

theorem Inserting.current_file {transaction : Transaction Raw} {chunks : List (Table Raw)} {n : ℕ}
    (h : Inserting appends nowV7 w i transaction chunks n) (hwriter : w.writer = some i) :
    Current appends i w.file := by
  rw [World.file,← h.newest hwriter]
  exact h.current

/-- Where an append may fail at all: at a check, with a conflict; at its first insert; or later on,
when all its streams are as it expects. -/
theorem statement_error (h : Sound appends nowV7 w) {c : Choice} {e : EventStoreError}
    (hc : c ≠ .fail) (hstep : w.statement appends handle nowV7 i c = some w')
    (he : w'.phase i = .ended (.error e)) :
    Conflict appends i e ∨ firstInsert w i = true ∨ Current appends i w.file := by
  have hi := h.phase i
  -- an insert happens on the newest snapshot, or is the first one
  have hinsert : ∀ {transaction : Transaction Raw} {chunk : Table Raw} {chunks : List (Table Raw)},
      w.phase i = .insert transaction (chunk :: chunks) →
        firstInsert w i = true ∨ Current appends i w.file := by
    intro transaction chunk chunks hphase
    rw [hphase] at hi
    obtain ⟨_,_,n,hinserting⟩ := hi
    by_cases hwriter : w.writer = some i
    · exact .inr (hinserting.current_file hwriter)
    · rw [firstInsert,hphase]
      exact .inl (decide_eq_true hwriter)
  cases statement_cases hstep with
  | nothing | started | current | checked =>
    have hgo := phase_go.symm.trans he
    cases hgo
  | enter =>
    have hbegin : (w.go i .begin).phase i = .ended (.error e) := he
    rw [phase_go] at hbegin
    cases hbegin
  | conflict hphase =>
    rw [hphase] at hi
    obtain ⟨_,_,_,checked,hchecking⟩ := hi
    rw [phase_fail] at he
    obtain rfl := Except.error.inj (Phase.ended.inj he)
    refine .inl ⟨_,?_,_,rfl⟩
    rw [← hchecking.whole]
    exact List.mem_append_right _ List.mem_cons_self
  | unassigned hphase herror =>
    obtain ⟨rows,hrows,_⟩ := assignRows_of_declared nowV7 w.drawn (appends i).declared
    cases herror.symm.trans hrows
  | insert hphase => exact .inr (hinsert hphase)
  | commit hphase =>
    have hcommit : (w.go i (.ended (.ok ()))).phase i = .ended (.error e) := he
    rw [phase_go] at hcommit
    cases hcommit
  | locked hphase => exact .inr (hinsert hphase)
  | fail => exact absurd rfl hc

theorem firstInsert_error (h : Sound appends nowV7 w) {c : Choice} (hc : c ≠ .fail)
    (hfirst : firstInsert w i = true) (hmoved : ¬ Current appends i w.file)
    (hstep : w.statement appends handle nowV7 i c = some w') :
    w'.phase i = .ended (.error (.storeFailure .appendEvents)) := by
  have hi := h.phase i
  unfold firstInsert at hfirst
  split at hfirst
  · rename_i transaction chunk chunks hphase
    rw [hphase] at hi
    obtain ⟨_,_,n,hinserting⟩ := hi
    simp only [World.statement,hphase] at hstep
    cases c with
    | fail => exact absurd rfl hc
    | busy =>
      simp only at hstep
      split_ifs at hstep
      obtain rfl := Option.some.inj hstep
      exact phase_fail _
    | ok =>
      simp only [World.insertChunk,hinserting.snapshot,Option.getD_some] at hstep
      have hold : n ≠ w.commits.length := by
        rintro rfl
        exact hmoved hinserting.current
      rw [if_neg hold] at hstep
      split_ifs at hstep
      obtain rfl := Option.some.inj hstep
      exact phase_fail _
  · cases hfirst

theorem firstInsert_locked {c : Choice} (hfirst : firstInsert w i = true) (hlocked : w.writer ≠ none)
    (hstep : w.statement appends handle nowV7 i c = some w') :
    w'.phase i = .ended (.error (.storeFailure .appendEvents)) := by
  unfold firstInsert at hfirst
  split at hfirst
  · rename_i transaction chunk chunks hphase
    have hother : ¬ (w.writer = none ∨ w.writer = some i) :=
      not_or.mpr ⟨hlocked,of_decide_eq_true hfirst⟩
    simp only [World.statement,hphase] at hstep
    cases c with
    | ok =>
      simp only [World.insertChunk,if_neg hother] at hstep
      cases hstep
    | busy =>
      simp only [if_neg hother] at hstep
      obtain rfl := Option.some.inj hstep
      exact phase_fail _
    | fail =>
      obtain rfl := Option.some.inj hstep
      exact phase_fail _
  · cases hfirst

theorem reportsConflict_iff (h : Sound appends nowV7 w) {l : Label}
    (hstep : w.step appends handle nowV7 l = some w') :
    ReportsConflict appends handle nowV7 w l ↔ Unraced appends w l := by
  cases l with
  | kill k => rfl
  | statement i c =>
    constructor
    · intro hreports hc hfirst
      by_contra hmoved
      obtain ⟨p,_,actual,he⟩ :=
        hreports hc hmoved w' _ hstep (firstInsert_error h hc hfirst hmoved hstep)
      cases he
    · intro hunraced hc hmoved w'' e hstep' he
      rcases statement_error h hc hstep' he with hconflict | hfirst | hcurrent
      · exact hconflict
      · exact absurd (hunraced hc hfirst) hmoved
      · exact absurd hcurrent hmoved

variable (appends handle nowV7) in
theorem reachable_sound (h : Reachable (system appends handle nowV7) w) :
    Sound appends nowV7 w := by
  refine ReachableBy.invariant (I := fun w => Sound appends nowV7 w) ?_ ?_ h
  · rintro w ⟨before,drawn,rfl⟩
    exact initial_sound before drawn
  · intro w l w' hw _ hstep
    exact step_sound hw hstep

theorem allSteps_reportsConflict_iff (hw : Reachable (system appends handle nowV7) w)
    {labels : List Label} (hrun : exec (system appends handle nowV7) w labels = some w') :
    AllSteps (system appends handle nowV7) (ReportsConflict appends handle nowV7) w labels ↔
      AllSteps (system appends handle nowV7) (Unraced appends) w labels :=
  hw.allSteps_iff (fun _ _ _ hw hstep =>
    reportsConflict_iff (reachable_sound appends handle nowV7 hw) hstep) hrun

/-- However appends through any handles interleave, no update is lost. Every append that fails once a
stream it has registered has moved on reports a conflict, if and only if in no append this happens
between its first check and its first insert. One that comes to its first insert while another has
written and not committed waits, or fails as a failure of the store. -/
theorem lost_races_reported_iff (hinit : (system appends handle nowV7).init w) {labels : List Label}
    (hrun : exec (system appends handle nowV7) w labels = some w') :
    NoLostUpdate appends w' ∧
      (AllSteps (system appends handle nowV7) (ReportsConflict appends handle nowV7) w labels ↔
        AllSteps (system appends handle nowV7) (Unraced appends) w labels) ∧
      ∀ i c v, firstInsert w' i = true → w'.writer ≠ none →
        w'.statement appends handle nowV7 i c = some v →
          v.phase i = .ended (.error (.storeFailure .appendEvents)) := by
  have hw : Reachable (system appends handle nowV7) w := .init hinit
  exact ⟨(reachable_sound appends handle nowV7 (hw.exec hrun)).noLostUpdate,
    allSteps_reportsConflict_iff hw hrun,
    fun _ _ _ hfirst hlocked hstep => firstInsert_locked hfirst hlocked hstep⟩

end Steps

end Appends

namespace OneAccount

def account : StreamId := Sample.cash

def appends (_ : AppendId) : StreamWrites Unit Unit where
  entries := [⟨account,(),"Opened",()⟩]
  expectedVersions := AList.insert account 0 ∅
  declared := by
    intro e he
    rw [List.mem_singleton.mp he]
    exact (AList.mem_insert _).mpr (.inl rfl)

abbrev twoHandles : System (World Unit) Label := system appends id id

def whole (i : AppendId) : List Label := List.replicate 6 (.statement i .ok)

/-- The second append checks the account before the first one commits, and inserts after it. -/
def raced : List Label :=
  List.replicate 4 (.statement 1 .ok) ++ whole 0 ++ [.statement 1 .ok]

/-- The second append checks the account once the first one has committed. -/
def checkedLater : List Label :=
  List.replicate 2 (.statement 1 .ok) ++ whole 0 ++ [.statement 1 .ok]

def lost : World Unit := (exec twoHandles {} raced).get (by decide +kernel)

def reported : World Unit := (exec twoHandles {} checkedLater).get (by decide +kernel)

end OneAccount

theorem lost_races_reported_later :
    NoLostUpdate OneAccount.appends OneAccount.reported ∧
      AllSteps OneAccount.twoHandles (ReportsConflict OneAccount.appends id id) {}
        OneAccount.checkedLater ∧
      (OneAccount.reported.phase 1).result? =
        some (.error (.versionConflict OneAccount.account 0 1)) := by
  have hrun : exec OneAccount.twoHandles {} OneAccount.checkedLater = some OneAccount.reported :=
    (Option.some_get _).symm
  obtain ⟨hkept,hreports,-⟩ := lost_races_reported_iff ⟨[],0,rfl⟩ hrun
  exact ⟨hkept,hreports.mpr (by decide +kernel),by decide +kernel⟩

/-- The first append has advanced the account, and the second one fails with a `StoreFailure`. -/
theorem lost_race_not_reported :
    exec OneAccount.twoHandles {} OneAccount.raced = some OneAccount.lost ∧
      (OneAccount.lost.phase 0).result? = some (.ok ()) ∧
      (OneAccount.lost.phase 1).result? = some (.error (.storeFailure .appendEvents)) ∧
      ¬ AllSteps OneAccount.twoHandles (ReportsConflict OneAccount.appends id id) {}
        OneAccount.raced := by
  have hrun : exec OneAccount.twoHandles {} OneAccount.raced = some OneAccount.lost :=
    (Option.some_get _).symm
  refine ⟨hrun,by decide +kernel,by decide +kernel,fun hreports => ?_⟩
  have hunraced := (allSteps_reportsConflict_iff (.init ⟨[],0,rfl⟩) hrun).mp hreports
  revert hunraced
  decide +kernel

end SqliteRaces
end EventCore
