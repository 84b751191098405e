import EventCore.PostgresAppends

/-! Why appends to shared streams do not overtake each other: the advisory locks that an append
holds keep the streams it has registered as it found them. -/
namespace EventCore
namespace AppendSerialization
open Interaction Runs SerdeJson SqliteStore PostgresStore StreamVersions PostgresAppends

variable {Any κ : Type}

def content (row : Row Text) : String × String × Text :=
  (row.streamId,row.eventType,row.eventData)

def entryContent (entry : StreamWriteEntry Any Text) : String × String × Text :=
  (entry.streamId.value,entry.eventType,entry.eventData.keyOrdered)

def own (i : AppendId) (w : World κ) : List (Table Text) :=
  (w.commits.filter fun commit => commit.1 = i).map Prod.snd

section Appends

variable (hashtextextended : String → κ) (appends : AppendId → StreamWrites Any Text)

/-- What others leave alone: an open transaction, its locks, and the streams that these are on. -/
structure Rely (i : AppendId) (w w' : World κ) : Prop where
  transaction : w'.transactions.get? i = none ∨ w'.transactions.get? i = w.transactions.get? i
  locks : ∀ t, w'.transactions.get? i = some t → ∀ key, w.locks key = some i →
    w'.locks key = some i
  streams : ∀ t, w'.transactions.get? i = some t → ∀ streamId,
    w.locks (hashtextextended streamId) = some i →
      rowsOf w'.events streamId = rowsOf w.events streamId
  own : own i w' = own i w

structure Commits (writes : StreamWrites Any Text) (w : World κ) (rows : Table Text) : Prop where
  expected : ∀ streamId version, writes.expectedVersions.get? streamId = some version →
    currentVersion w.events streamId.value = version
  contents : rows.map content = writes.entries.map entryContent
  contiguous : Contiguous (w.events ++ rows)

structure Guar (i : AppendId) (w w' : World κ) : Prop where
  before : w'.before = w.before
  transactions : ∀ j, j ≠ i → w'.transactions.get? j = w.transactions.get? j
  locks : ∀ j, j ≠ i → ∀ key, w.locks key = some j → w'.locks key = some j
  commits : w'.commits = w.commits ∨ ∃ rows, w'.commits = w.commits ++ [(i,rows)] ∧
    Commits (appends i) w rows ∧ ∀ row ∈ rows, w.locks (hashtextextended row.streamId) = some i

section Rules

variable {hashtextextended appends} {i j : AppendId} {w w' w'' : World κ}

theorem Rely.refl (w : World κ) : Rely hashtextextended i w w :=
  ⟨.inr rfl,fun _ _ _ h => h,fun _ _ _ _ => rfl,rfl⟩

theorem Rely.open_before {t : Transaction} (h : Rely hashtextextended i w w')
    (ht : w'.transactions.get? i = some t) : w.transactions.get? i = some t := by
  rcases h.transaction with hnone | hsame
  · rw [hnone] at ht
    cases ht
  · rw [← hsame,ht]

theorem Rely.trans (h : Rely hashtextextended i w w') (h' : Rely hashtextextended i w' w'') :
    Rely hashtextextended i w w'' := by
  refine ⟨?_,fun t ht key hkey => ?_,fun t ht streamId hkey => ?_,h'.own.trans h.own⟩
  · rcases h'.transaction with hnone | hsame
    · exact .inl hnone
    · rw [hsame]
      exact h.transaction
  · have ht' := h'.open_before ht
    exact h'.locks t ht key (h.locks t ht' key hkey)
  · have ht' := h'.open_before ht
    have hkey' := h.locks t ht' _ hkey
    rw [h'.streams t ht streamId hkey',h.streams t ht' streamId hkey]

theorem events_of_commits_eq (hbefore : w'.before = w.before) (hcommits : w'.commits = w.commits) :
    w'.events = w.events := by
  rw [World.events,World.events,hbefore,hcommits]

theorem events_of_commits_append {rows : Table Text} (hbefore : w'.before = w.before)
    (hcommits : w'.commits = w.commits ++ [(i,rows)]) : w'.events = w.events ++ rows := by
  simp [World.events,hbefore,hcommits]

theorem own_of_commits_append {rows : Table Text}
    (hcommits : w'.commits = w.commits ++ [(i,rows)]) :
    own j w' = if i = j then own j w ++ [rows] else own j w := by
  unfold own
  rw [hcommits,List.filter_append,List.map_append]
  by_cases hij : i = j
  · simp [hij]
  · simp [hij]

theorem Guar.rely (hij : i ≠ j) (h : Guar hashtextextended appends i w w') :
    Rely hashtextextended j w w' := by
  refine ⟨.inr (h.transactions j (Ne.symm hij)),fun _ _ => h.locks j (Ne.symm hij),
    fun _ _ streamId hkey => ?_,?_⟩
  · rcases h.commits with hsame | ⟨rows,hrows,_,hlocked⟩
    · rw [events_of_commits_eq h.before hsame]
    · have hnone : rowsOf rows streamId = [] := by
        refine List.filter_eq_nil_iff.mpr fun row hrow hstream => ?_
        have hheld := hlocked row hrow
        rw [of_decide_eq_true hstream,hkey] at hheld
        exact hij (Option.some.inj hheld).symm
      rw [events_of_commits_append h.before hrows,rowsOf_append,hnone,List.append_nil]
  · rcases h.commits with hsame | ⟨rows,hrows,_,_⟩
    · rw [own,own,hsame]
    · rw [own_of_commits_append hrows,if_neg hij]

theorem Guar.of_commits_eq (hbefore : w'.before = w.before) (hcommits : w'.commits = w.commits)
    (htransactions : ∀ j, j ≠ i → w'.transactions.get? j = w.transactions.get? j)
    (hlocks : ∀ j, j ≠ i → ∀ key, w.locks key = some j → w'.locks key = some j) :
    Guar hashtextextended appends i w w' :=
  ⟨hbefore,htransactions,hlocks,.inl hcommits⟩

theorem get?_update_ne {t : Transaction} (hji : j ≠ i) :
    (w.update i t).transactions.get? j = w.transactions.get? j :=
  HashMap.get?_insert_ne _ _ hji

theorem get?_finish_self : (w.finish i).transactions.get? i = none := AList.lookup_erase _ _

theorem get?_finish_ne (hji : j ≠ i) :
    (w.finish i).transactions.get? j = w.transactions.get? j := AList.lookup_erase_ne hji

theorem locks_finish {key : κ} (hji : j ≠ i) (h : w.locks key = some j) :
    (w.finish i).locks key = some j := by
  simp [World.finish,h,hji]

theorem rollback_rely (h : World.rollback w i = some w') : Rely hashtextextended j w w' := by
  obtain ⟨_,_,rfl⟩ := Option.map_eq_some_iff.mp h
  by_cases hji : j = i
  · subst hji
    refine ⟨.inl get?_finish_self,fun t ht => ?_,fun _ _ _ _ => rfl,rfl⟩
    rw [get?_finish_self] at ht
    cases ht
  · exact ⟨.inr (get?_finish_ne hji),fun _ _ _ hkey => locks_finish hji hkey,
      fun _ _ _ _ => rfl,rfl⟩

variable (hashtextextended appends) [DecidableEq κ] (accepts : Text → Bool) (nowV7 : ℕ → Uuid)

def rules : Rules (World.machine hashtextextended accepts nowV7 :
    Machine AppendId (Request Any) Answer (World κ) Choice AppendId) where
  inv w := Contiguous w.events
  rely := Rely hashtextextended
  guar := Guar hashtextextended appends
  fresh i w := own i w = []
  rely_refl _ w := Rely.refl w
  rely_trans := Rely.trans
  guar_rely hij _ h := h.rely hij
  fresh_rely hown h := h.own.trans hown
  background_inv := by
    intro w w' b hinv h
    obtain ⟨_,_,rfl⟩ := Option.map_eq_some_iff.mp h
    exact hinv
  background_rely _ h := rollback_rely h

end Rules

section Ended

variable {hashtextextended appends}

theorem mem_commits {i : AppendId} {w : World κ} {rows : Table Text} :
    rows ∈ own i w ↔ (i,rows) ∈ w.commits := by
  simp [own]

/-- A successful append that carries events has committed once, a failed one has not. -/
def Ended (appends : AppendId → StreamWrites Any Text) (i : AppendId) (w : World κ) :
    Option (Except EventStoreError Unit) → Prop
  | some (.ok _) => (appends i).entries ≠ [] → ∃ rows, own i w = [rows]
  | some (.error _) => own i w = []
  | none => True

theorem Ended.stable (i : AppendId) (w w' : World κ) (r : Option (Except EventStoreError Unit))
    (h : Ended appends i w r) (hrely : Rely hashtextextended i w w') : Ended appends i w' r := by
  match r with
  | none => trivial
  | some (.error _) => exact hrely.own.trans h
  | some (.ok _) =>
    intro hentries
    obtain ⟨rows,hrows⟩ := h hentries
    exact ⟨rows,hrely.own.trans hrows⟩

end Ended

/-- How far an append has come whose transaction is open: the streams it has locked, the versions it
has found as expected, and the entries it has inserted. -/
structure Stage (i : AppendId) (locked : List String)
    (checked : List (Sigma fun _ : StreamId => StreamVersion))
    (entries : List (StreamWriteEntry Any Text)) (w : World κ) (t : Transaction) : Prop where
  locks : ∀ streamId ∈ locked, w.locks (hashtextextended streamId) = some i
  covered : ∀ p ∈ checked, p.1.value ∈ locked
  expected : ∀ p ∈ checked, currentVersion w.events p.1.value = p.2
  contents : t.rows.map content = entries.map entryContent
  within : ∀ row ∈ t.rows, row.streamId ∈ locked
  contiguous : Contiguous (w.events ++ t.rows)

/-- The transaction may have been rolled back meanwhile, nothing has been committed. -/
structure At (i : AppendId) (locked : List String)
    (checked : List (Sigma fun _ : StreamId => StreamVersion))
    (entries : List (StreamWriteEntry Any Text)) (w : World κ) : Prop where
  own : own i w = []
  stage : ∀ t, w.transactions.get? i = some t →
    Stage hashtextextended i locked checked entries w t

section Stage

variable {hashtextextended appends} {i : AppendId} {locked : List String}
  {checked : List (Sigma fun _ : StreamId => StreamVersion)}
  {entries : List (StreamWriteEntry Any Text)} {w w' : World κ}

theorem Stage.rely {t : Transaction} (h : Stage hashtextextended i locked checked entries w t)
    (hrely : Rely hashtextextended i w w') (hinv : Contiguous w'.events)
    (ht : w'.transactions.get? i = some t) :
    Stage hashtextextended i locked checked entries w' t := by
  have hlocks : ∀ streamId ∈ locked, w'.locks (hashtextextended streamId) = some i :=
    fun streamId hmem => hrely.locks t ht _ (h.locks streamId hmem)
  have hsame : ∀ streamId ∈ locked, rowsOf w'.events streamId = rowsOf w.events streamId :=
    fun streamId hmem => hrely.streams t ht streamId (h.locks streamId hmem)
  refine ⟨hlocks,h.covered,fun p hp => ?_,h.contents,h.within,fun streamId => ?_⟩
  · have hrows := hsame p.1.value (h.covered p hp)
    rw [currentVersion,hrows]
    exact h.expected p hp
  · by_cases hmem : streamId ∈ locked
    · have hwhole := h.contiguous streamId
      rw [rowsOf_append] at hwhole
      rw [rowsOf_append,hsame streamId hmem]
      exact hwhole
    · have hnone : rowsOf t.rows streamId = [] := by
        refine List.filter_eq_nil_iff.mpr fun row hrow hstream => hmem ?_
        exact of_decide_eq_true hstream ▸ h.within row hrow
      rw [rowsOf_append,hnone,List.append_nil]
      exact hinv streamId

theorem At.rely (h : At hashtextextended i locked checked entries w)
    (hrely : Rely hashtextextended i w w') (hinv : Contiguous w'.events) :
    At hashtextextended i locked checked entries w' :=
  ⟨hrely.own.trans h.own,fun t ht => (h.stage t (hrely.open_before ht)).rely hrely hinv ht⟩

end Stage

section Spec

variable [DecidableEq κ] (accepts : Text → Bool) (nowV7 : ℕ → Uuid)

/-- A part of an append ends in `Q`, or in an error with nothing committed. -/
def Spec {α : Type} (i : AppendId) (Q : World κ → α → Prop) (w : World κ) (p : Append Any α) :
    Prop :=
  (rules hashtextextended appends accepts nowV7).Meets i
    (fun w (r : Option (Except EventStoreError α)) => match r with
      | none => True
      | some (.error _) => own i w = []
      | some (.ok a) => Q w a) w p

variable {hashtextextended appends accepts nowV7} {α β : Type} {i : AppendId} {locked : List String}
  {checked : List (Sigma fun _ : StreamId => StreamVersion)}
  {entries : List (StreamWriteEntry Any Text)} {w : World κ}

theorem Spec.pure {Q : World κ → α → Prop} {a : α} (h : Q w a) :
    Spec hashtextextended appends accepts nowV7 i Q w (Pure.pure a : Append Any α) := h

theorem Spec.bind {Q : World κ → β → Prop} {p : Append Any α} {f : α → Append Any β}
    (hp : Spec hashtextextended appends accepts nowV7 i
      (fun w a => Spec hashtextextended appends accepts nowV7 i Q w (f a)) w p) :
    Spec hashtextextended appends accepts nowV7 i Q w (p >>= f) := by
  refine Rules.Meets.bindExcept (Rules.Meets.mono (fun w r hr => ?_) hp)
  match r with
  | none => trivial
  | some (.error _) => exact hr
  | some (.ok a) => exact hr

theorem Spec.mono {Q Q' : World κ → α → Prop} {p : Append Any α}
    (hp : Spec hashtextextended appends accepts nowV7 i Q w p) (h : ∀ w a, Q w a → Q' w a) :
    Spec hashtextextended appends accepts nowV7 i Q' w p := by
  refine Rules.Meets.mono (fun w r hr => ?_) hp
  match r with
  | none => trivial
  | some (.error _) => exact hr
  | some (.ok a) => exact h w a hr

theorem execute_quiet {t : Transaction} {q : Request Any} {a : Answer q} {w' : World κ}
    (hq : q ≠ .commit) (h : w.execute hashtextextended accepts nowV7 i t q = some (a,w')) :
    Guar hashtextextended appends i w w' ∧ w'.commits = w.commits ∧ w'.events = w.events := by
  have hsame : w'.before = w.before ∧ w'.commits = w.commits ∧
      (∀ j, j ≠ i → w'.transactions.get? j = w.transactions.get? j) ∧
      ∀ j, j ≠ i → ∀ key, w.locks key = some j → w'.locks key = some j := by
    cases q with
    | «begin» => cases h
    | commit => exact absurd rfl hq
    | advisoryXactLock streamId =>
      simp only [World.execute] at h
      split_ifs at h with hfree
      obtain rfl := (Prod.mk.inj (Option.some.inj h)).2
      refine ⟨rfl,rfl,fun _ _ => rfl,fun j hji key hkey => ?_⟩
      have hne : key ≠ hashtextextended streamId := by
        rintro rfl
        rcases hfree with hnone | hown
        · rw [hnone] at hkey
          cases hkey
        · rw [hown] at hkey
          exact hji (Option.some.inj hkey).symm
      simpa [Function.update_of_ne hne] using hkey
    | selectMaxVersion streamId =>
      obtain rfl := (Prod.mk.inj (Option.some.inj h)).2
      exact ⟨rfl,rfl,fun _ _ => rfl,fun _ _ _ hkey => hkey⟩
    | setConfig expectedVersions =>
      obtain rfl := (Prod.mk.inj (Option.some.inj h)).2
      exact ⟨rfl,rfl,fun _ hji => get?_update_ne hji,fun _ _ _ hkey => hkey⟩
    | insertEvents chunk =>
      simp only [World.execute] at h
      split at h
      · obtain rfl := (Prod.mk.inj (Option.some.inj h)).2
        exact ⟨rfl,rfl,fun _ _ => rfl,fun _ _ _ hkey => hkey⟩
      · split_ifs at h
        obtain rfl := (Prod.mk.inj (Option.some.inj h)).2
        exact ⟨rfl,rfl,fun _ hji => get?_update_ne hji,fun _ _ _ hkey => hkey⟩
  obtain ⟨hbefore,hcommits,htransactions,hlocks⟩ := hsame
  exact ⟨.of_commits_eq hbefore hcommits htransactions hlocks,hcommits,
    events_of_commits_eq hbefore hcommits⟩

theorem Spec.statement {q : Request Any} {Q : World κ → q.Reply → Prop} (hbegin : q ≠ .begin)
    (hcommit : q ≠ .commit) (hat : At hashtextextended i locked checked entries w)
    (h : ∀ w' t r w'', Stage hashtextextended i locked checked entries w' t → own i w'' = [] →
      w'.transactions.get? i = some t →
      w'.execute hashtextextended accepts nowV7 i t q = some (.ok r,w'') → Q w'' r) :
    Spec hashtextextended appends accepts nowV7 i Q w (ask q) := by
  intro w' hrely hinv c a w'' hperform
  have hat' := hat.rely hrely hinv
  change World.perform hashtextextended accepts nowV7 w' i q c = some (a,w'') at hperform
  cases c with
  | fail =>
    have hfail : World.perform hashtextextended accepts nowV7 w' i q .fail =
        some (.error (.storeFailure q.operation),w') := by
      cases q with
      | commit => exact absurd rfl hcommit
      | _ => rfl
    rw [hperform] at hfail
    obtain ⟨rfl,rfl⟩ := Prod.mk.inj (Option.some.inj hfail)
    exact ⟨hinv,.of_commits_eq rfl rfl (fun _ _ => rfl) (fun _ _ _ hkey => hkey),hat'.own⟩
  | ok =>
    have hok : World.perform hashtextextended accepts nowV7 w' i q .ok =
        (w'.transactions.get? i).bind fun t => w'.execute hashtextextended accepts nowV7 i t q := by
      cases q with
      | «begin» => exact absurd rfl hbegin
      | _ => rfl
    rw [hperform] at hok
    obtain ⟨t,ht,hexecute⟩ := Option.bind_eq_some_iff.mp hok.symm
    have hquiet : Guar hashtextextended appends i w' w'' ∧ _ := execute_quiet hcommit hexecute
    obtain ⟨hguar,hcommits,hevents⟩ := hquiet
    have hown : own i w'' = [] := by
      rw [own,hcommits]
      exact hat'.own
    refine ⟨show Contiguous w''.events from hevents ▸ hinv,hguar,?_⟩
    match a with
    | .error _ => exact hown
    | .ok r => exact h w' t r w'' (hat'.stage t ht) hown ht hexecute

end Spec

section Insertion

variable {accepts : Text → Bool} {nowV7 : ℕ → Uuid}

theorem insertRows_contiguous {chunk : List (StreamWriteEntry Any Text)}
    {insertion insertion' : Insertion} (h : Contiguous insertion.table)
    (hinsert : chunk.foldlM (insertRow accepts nowV7) insertion = .ok insertion') :
    ∃ rows, insertion'.table = insertion.table ++ rows ∧
      rows.map content = chunk.map entryContent ∧ Contiguous insertion'.table := by
  induction chunk generalizing insertion with
  | nil =>
    obtain rfl := Except.ok.inj hinsert
    exact ⟨[],by simp,rfl,h⟩
  | cons entry chunk ih =>
    rw [List.foldlM_cons] at hinsert
    cases hstep : insertRow accepts nowV7 insertion entry with
    | error e => simp [hstep,bind,Except.bind] at hinsert
    | ok mid =>
      rw [hstep] at hinsert
      obtain ⟨row,hmid,hstream,hversion,htype,hdata⟩ := insertRow_eq_ok hstep
      have hcontiguous : Contiguous mid.table := by
        rw [hmid]
        exact h.concat (by rw [hversion,hstream])
      obtain ⟨rows,htable,hcontents,hcontiguous'⟩ := ih hcontiguous hinsert
      refine ⟨row :: rows,by rw [htable,hmid,List.append_assoc,List.singleton_append],?_,
        hcontiguous'⟩
      rw [List.map_cons,List.map_cons,hcontents]
      simp [content,entryContent,hstream,htype,hdata]

theorem chunksWithin_flatten {α : Type} {size : ℕ} (hsize : 0 < size) (steps : ℕ)
    (items : List α) (h : items.length ≤ steps) :
    (chunksWithin size steps items).flatten = items := by
  induction steps generalizing items with
  | zero => simp [chunksWithin,List.length_eq_zero_iff.mp (Nat.le_zero.mp h)]
  | succ steps ih =>
    cases items with
    | nil => rfl
    | cons item items =>
      have hdrop : ((item :: items).drop size).length ≤ steps := by
        simp only [List.length_drop,List.length_cons] at h ⊢
        omega
      rw [chunksWithin,List.flatten_cons,ih _ hdrop,List.take_append_drop]
      simp

theorem chunks_flatten {α : Type} (size : ℕ) (hsize : 0 < size) (items : List α) :
    (chunks size items).flatten = items := chunksWithin_flatten hsize _ _ le_rfl

end Insertion

section Parts

variable {hashtextextended appends} [DecidableEq κ] {accepts : Text → Bool} {nowV7 : ℕ → Uuid}
  {i : AppendId} {locked : List String}
  {checked : List (Sigma fun _ : StreamId => StreamVersion)}
  {entries : List (StreamWriteEntry Any Text)} {w : World κ}

theorem begin_spec (hown : own i w = []) :
    Spec hashtextextended appends accepts nowV7 i
      (fun w _ => At hashtextextended i [] [] ([] : List (StreamWriteEntry Any Text)) w) w
      (ask .begin : Append Any Unit) := by
  intro w' hrely hinv c a w'' hperform
  have hown' : own i w' = [] := hrely.own.trans hown
  change World.perform hashtextextended accepts nowV7 w' i .begin c = some (a,w'') at hperform
  cases c with
  | fail =>
    obtain ⟨rfl,rfl⟩ := Prod.mk.inj (Option.some.inj hperform)
    exact ⟨hinv,.of_commits_eq rfl rfl (fun _ _ => rfl) (fun _ _ _ hkey => hkey),hown'⟩
  | ok =>
    simp only [World.perform] at hperform
    split at hperform
    · obtain ⟨rfl,rfl⟩ := Prod.mk.inj (Option.some.inj hperform)
      refine ⟨hinv,.of_commits_eq rfl rfl (fun _ hji => get?_update_ne hji)
        (fun _ _ _ hkey => hkey),hown',fun t ht => ?_⟩
      obtain rfl : {} = t := Option.some.inj ((HashMap.get?_insert_self _ _ _).symm.trans ht)
      refine ⟨by simp,by simp,by simp,rfl,by simp,?_⟩
      rw [List.append_nil]
      exact hinv
    · cases hperform

theorem lockStreams_spec (expectedStreams : List (Sigma fun _ : StreamId => StreamVersion))
    (hat : At hashtextextended i locked [] entries w) :
    Spec hashtextextended appends accepts nowV7 i
      (fun w _ => At hashtextextended i (locked ++ expectedStreams.map fun p => p.1.value) []
        entries w) w (lockStreams expectedStreams) := by
  induction expectedStreams generalizing locked w with
  | nil => exact Spec.pure (by simpa using hat)
  | cons p expectedStreams ih =>
    refine Spec.bind (Spec.statement (by simp) (by simp) hat fun w' t r w'' hstage hown ht hexecute => ?_)
    simp only [World.execute] at hexecute
    split_ifs at hexecute with hfree
    obtain rfl := (Prod.mk.inj (Option.some.inj hexecute)).2
    have hnext : At hashtextextended i (locked ++ [p.1.value]) [] entries
        { w' with locks := Function.update w'.locks (hashtextextended p.1.value) (some i) } := by
      refine ⟨hown,fun u hu => ?_⟩
      obtain rfl := Option.some.inj (ht.symm.trans hu)
      refine ⟨fun streamId hmem => ?_,by simp,by simp,hstage.contents,fun row hrow =>
        List.mem_append_left _ (hstage.within row hrow),hstage.contiguous⟩
      by_cases hkey : hashtextextended streamId = hashtextextended p.1.value
      · simp [hkey]
      · rcases List.mem_append.mp hmem with hmem | hmem
        · simpa [Function.update_of_ne hkey] using hstage.locks streamId hmem
        · exact absurd (by rw [List.mem_singleton.mp hmem]) hkey
    have hrest := ih hnext
    rw [List.append_assoc,List.singleton_append] at hrest
    exact hrest

theorem checkStreams_spec (expectedStreams : List (Sigma fun _ : StreamId => StreamVersion))
    (hat : At hashtextextended i locked checked ([] : List (StreamWriteEntry Any Text)) w)
    (hlocked : ∀ p ∈ expectedStreams, p.1.value ∈ locked) :
    Spec hashtextextended appends accepts nowV7 i
      (fun w _ => At hashtextextended i locked (checked ++ expectedStreams)
        ([] : List (StreamWriteEntry Any Text)) w) w (checkStreams expectedStreams) := by
  induction expectedStreams generalizing checked w with
  | nil => exact Spec.pure (by simpa using hat)
  | cons p expectedStreams ih =>
    obtain ⟨hp,hlocked⟩ := List.forall_mem_cons.mp hlocked
    refine Spec.bind (Spec.statement (by simp) (by simp) hat fun w' t r w'' hstage hown ht hexecute => ?_)
    obtain ⟨hr,rfl⟩ := Prod.mk.inj (Option.some.inj hexecute)
    have hrows : t.rows = [] := by
      have hcontents := hstage.contents
      simpa using hcontents
    have hactual : r = currentVersion w'.events p.1.value := by
      rw [← Except.ok.inj hr,hrows,List.append_nil]
    by_cases hne : r = p.2
    · have hnext : At hashtextextended i locked (checked ++ [p])
          ([] : List (StreamWriteEntry Any Text)) w' := by
        refine ⟨hown,fun u hu => ?_⟩
        obtain rfl := Option.some.inj (ht.symm.trans hu)
        refine ⟨hstage.locks,fun q hq => ?_,fun q hq => ?_,hstage.contents,hstage.within,
          hstage.contiguous⟩
        · rcases List.mem_append.mp hq with hq | hq
          · exact hstage.covered q hq
          · rw [List.mem_singleton.mp hq]
            exact hp
        · rcases List.mem_append.mp hq with hq | hq
          · exact hstage.expected q hq
          · rw [List.mem_singleton.mp hq,← hactual,hne]
      have hrest := ih hnext hlocked
      rw [List.append_assoc,List.singleton_append] at hrest
      simpa [hne] using hrest
    · have herror : Spec hashtextextended appends accepts nowV7 i
          (fun w _ => At hashtextextended i locked (checked ++ p :: expectedStreams)
            ([] : List (StreamWriteEntry Any Text)) w) w'
          (throw (.versionConflict p.1 p.2 r) : Append Any Unit) := hown
      simpa [hne] using herror

theorem setConfig_spec (expectedVersions : HashMap String ℕ)
    (hat : At hashtextextended i locked checked entries w) :
    Spec hashtextextended appends accepts nowV7 i
      (fun w _ => At hashtextextended i locked checked entries w) w
      (ask (.setConfig expectedVersions)) := by
  refine Spec.statement (by simp) (by simp) hat fun w' t r w'' hstage hown ht hexecute => ?_
  obtain rfl := (Prod.mk.inj (Option.some.inj hexecute)).2
  refine ⟨hown,fun u hu => ?_⟩
  obtain rfl := Option.some.inj ((HashMap.get?_insert_self _ _ _).symm.trans hu)
  exact ⟨hstage.locks,hstage.covered,hstage.expected,hstage.contents,hstage.within,
    hstage.contiguous⟩

theorem insertChunks_spec (rest : List (List (StreamWriteEntry Any Text)))
    (hat : At hashtextextended i locked checked entries w)
    (hlocked : ∀ chunk ∈ rest, ∀ entry ∈ chunk, entry.streamId.value ∈ locked) :
    Spec hashtextextended appends accepts nowV7 i
      (fun w _ => At hashtextextended i locked checked (entries ++ rest.flatten) w) w
      (insertChunks rest) := by
  induction rest generalizing entries w with
  | nil => exact Spec.pure (by simpa using hat)
  | cons chunk rest ih =>
    obtain ⟨hchunk,hlocked⟩ := List.forall_mem_cons.mp hlocked
    refine Spec.bind (Spec.statement (by simp) (by simp) hat fun w' t r w'' hstage hown ht hexecute => ?_)
    simp only [World.execute] at hexecute
    split at hexecute
    · cases (Prod.mk.inj (Option.some.inj hexecute)).1
    · rename_i insertion hinsert
      split_ifs at hexecute
      obtain ⟨rows,htable,hcontents,hcontiguous⟩ :=
        insertRows_contiguous hstage.contiguous hinsert
      obtain rfl := (Prod.mk.inj (Option.some.inj hexecute)).2
      have hdrop : insertion.table.drop w'.events.length = t.rows ++ rows := by
        rw [htable,List.append_assoc,List.drop_left]
      have hnext : At hashtextextended i locked checked (entries ++ chunk)
          { w'.update i ⟨insertion.table.drop w'.events.length,insertion.expectedVersions⟩ with
            drawn := w'.drawn + chunk.length } := by
        refine ⟨hown,fun u hu => ?_⟩
        obtain rfl := Option.some.inj ((HashMap.get?_insert_self _ _ _).symm.trans hu)
        refine ⟨hstage.locks,hstage.covered,hstage.expected,?_,fun row hrow => ?_,?_⟩
        · rw [hdrop,List.map_append,List.map_append,hstage.contents,hcontents]
        · rw [hdrop] at hrow
          rcases List.mem_append.mp hrow with hrow | hrow
          · exact hstage.within row hrow
          · have hmem : content row ∈ chunk.map entryContent :=
              hcontents ▸ List.mem_map_of_mem hrow
            obtain ⟨entry,hentry,hsame⟩ := List.mem_map.mp hmem
            have hstream : entry.streamId.value = row.streamId := congrArg Prod.fst hsame
            exact hstream ▸ hchunk entry hentry
        · have hwhole : w'.events ++ insertion.table.drop w'.events.length = insertion.table := by
            rw [hdrop,htable,List.append_assoc]
          have hcontiguous' := hcontiguous
          rw [← hwhole] at hcontiguous'
          exact hcontiguous'
      refine Spec.mono (ih hnext hlocked) fun w _ h => ?_
      rwa [List.append_assoc] at h

theorem commit_spec (hat : At hashtextextended i locked checked (appends i).entries w)
    (hchecked : ∀ streamId version, (appends i).expectedVersions.get? streamId = some version →
      ⟨streamId,version⟩ ∈ checked) :
    Spec hashtextextended appends accepts nowV7 i (fun w _ => ∃ rows, own i w = [rows]) w
      (ask .commit) := by
  intro w' hrely hinv c a w'' hperform
  have hat' := hat.rely hrely hinv
  change World.perform hashtextextended accepts nowV7 w' i .commit c = some (a,w'') at hperform
  cases c with
  | fail =>
    obtain ⟨rfl,rfl⟩ := Prod.mk.inj (Option.some.inj hperform)
    exact ⟨hinv,.of_commits_eq rfl rfl (fun _ hji => get?_finish_ne hji)
      (fun _ hji _ hkey => locks_finish hji hkey),hat'.own⟩
  | ok =>
    obtain ⟨t,ht,hexecute⟩ := Option.bind_eq_some_iff.mp hperform
    obtain ⟨rfl,hw⟩ := Prod.mk.inj (Option.some.inj hexecute)
    have hstage := hat'.stage t ht
    have hbefore : w''.before = w'.before := by
      rw [← hw]
      rfl
    have hcommits : w''.commits = w'.commits ++ [(i,t.rows)] := by
      rw [← hw]
    refine ⟨?_,⟨hbefore,fun j hji => ?_,fun j hji key hkey => ?_,.inr ⟨t.rows,hcommits,
      ⟨fun streamId version hversion => ?_,hstage.contents,hstage.contiguous⟩,
        fun row hrow => hstage.locks _ (hstage.within row hrow)⟩⟩,t.rows,?_⟩
    · show Contiguous w''.events
      rw [events_of_commits_append hbefore hcommits]
      exact hstage.contiguous
    · rw [← hw]
      exact get?_finish_ne hji
    · rw [← hw]
      exact locks_finish hji hkey
    · exact hstage.expected _ (hchecked streamId version hversion)
    · rw [own_of_commits_append hcommits,if_pos rfl,hat'.own,List.nil_append]

theorem appendEvents_meets (hown : own i w = []) :
    (rules hashtextextended appends accepts nowV7).Meets i (Ended appends i) w
      (PostgresAppends.appendEvents (appends i)) := by
  have hspec : Spec hashtextextended appends accepts nowV7 i
      (fun w _ => (appends i).entries ≠ [] → ∃ rows, own i w = [rows]) w
      (PostgresAppends.appendEvents (appends i)) := by
    unfold PostgresAppends.appendEvents
    cases hentries : (appends i).entries with
    | nil => exact Spec.pure (fun hne => absurd rfl hne)
    | cons entry entries =>
      have hsorted : ((appends i).expectedVersions.entries.insertionSort
          fun p q => p.1.value ≤ q.1.value).Perm (appends i).expectedVersions.entries :=
        List.perm_insertionSort _ _
      refine Spec.bind (Spec.mono (begin_spec hown) fun w _ hat => ?_)
      refine Spec.bind (Spec.bind (Spec.mono (lockStreams_spec _ hat) fun w _ hat => ?_))
      refine Spec.mono (checkStreams_spec _ hat fun p hp => ?_) fun w _ hat => ?_
      · exact List.mem_append_right _ (List.mem_map_of_mem hp)
      refine Spec.bind (Spec.mono (setConfig_spec _ hat) fun w _ hat => ?_)
      refine Spec.bind (Spec.mono (insertChunks_spec _ hat fun chunk hchunk e he => ?_)
        fun w _ hat => ?_)
      · have hmem : e ∈ (appends i).entries := by
          rw [hentries,← chunks_flatten maxEventsPerInsert (by decide) (entry :: entries)]
          exact List.mem_flatten_of_mem hchunk he
        have hdeclared := HashMap.get?_isSome_iff.mpr ((appends i).declared e hmem)
        obtain ⟨version,hversion⟩ := Option.isSome_iff_exists.mp hdeclared
        exact List.mem_append_right _ (List.mem_map.mpr ⟨⟨e.streamId,version⟩,
          hsorted.mem_iff.mpr (HashMap.mem_entries_iff.mpr hversion),rfl⟩)
      · rw [List.nil_append,chunks_flatten _ (by decide),← hentries] at hat
        refine Spec.mono (commit_spec hat fun streamId version hversion => ?_) fun w _ h _ => h
        exact List.mem_append_right _ (hsorted.mem_iff.mpr (HashMap.mem_entries_iff.mpr hversion))
  refine Rules.Meets.mono (fun w r hr => ?_) hspec
  match r with
  | none => trivial
  | some (.error _) => exact hr
  | some (.ok _) => exact hr

end Parts

section System

variable [DecidableEq κ] (accepts : Text → Bool) (nowV7 : ℕ → Uuid)

/-- Any number of appends, each in its own transaction, statement by statement in any order. -/
def system : System (State AppendId (Request Any) Answer (World κ) (Except EventStoreError Unit))
    (Label AppendId Choice AppendId) :=
  (World.machine hashtextextended accepts nowV7).system
    (fun i _ => (PostgresAppends.appendEvents (appends i) : Program (Request Any) Answer _))
    fun w => ∃ before, Contiguous before ∧ w = { before }

variable {hashtextextended appends accepts nowV7} {s : State AppendId (Request Any) Answer (World κ)
  (Except EventStoreError Unit)}

theorem meets_programs (i : AppendId) (_ : ℕ) (w : World κ)
    (_ : (rules hashtextextended appends accepts nowV7).inv w)
    (h : (rules hashtextextended appends accepts nowV7).fresh i w) :
    (rules hashtextextended appends accepts nowV7).Meets i (Ended appends i) w
      (PostgresAppends.appendEvents (appends i)) := appendEvents_meets h

theorem initial_sound (w : World κ) (h : ∃ before, Contiguous before ∧ w = { before }) :
    (rules hashtextextended appends accepts nowV7).inv w ∧
      ∀ i, (rules hashtextextended appends accepts nowV7).fresh i w := by
  obtain ⟨before,hcontiguous,rfl⟩ := h
  refine ⟨?_,fun _ => rfl⟩
  show Contiguous (before ++ [])
  rwa [List.append_nil]

/-- A step commits nothing, or one append with all its rows and with every stream it has
registered at the version it expects. -/
theorem step_commits (h : Reachable (system hashtextextended appends accepts nowV7) s)
    {l : Label AppendId Choice AppendId} {t : State AppendId (Request Any) Answer (World κ)
      (Except EventStoreError Unit)}
    (hstep : (system hashtextextended appends accepts nowV7).step s l = some t) :
    t.world.events = s.world.events ∧ t.world.commits = s.world.commits ∨
      ∃ i rows, l.client? = some i ∧ t.world.commits = s.world.commits ++ [(i,rows)] ∧
        t.world.events = s.world.events ++ rows ∧ Commits (appends i) s.world rows := by
  have hguar : ∀ i, Guar hashtextextended appends i s.world t.world → l.client? = some i →
      t.world.events = s.world.events ∧ t.world.commits = s.world.commits ∨
      ∃ i rows, l.client? = some i ∧ t.world.commits = s.world.commits ++ [(i,rows)] ∧
        t.world.events = s.world.events ++ rows ∧ Commits (appends i) s.world rows := by
    intro i hguar hl
    rcases hguar.commits with hsame | ⟨rows,hrows,hcommits,_⟩
    · exact .inl ⟨events_of_commits_eq hguar.before hsame,hsame⟩
    · exact .inr ⟨i,rows,hl,hrows,events_of_commits_append hguar.before hrows,hcommits⟩
  obtain ⟨hinv,hclients⟩ := reachable_sound (R := rules hashtextextended appends accepts nowV7) meets_programs
    initial_sound h
  obtain ⟨_,_,hlabel⟩ := step_sound meets_programs hinv hclients hstep
  cases l with
  | start i n =>
    rw [hlabel.1]
    exact .inl ⟨rfl,rfl⟩
  | ask i c => exact hguar i hlabel.1 rfl
  | orphan i c => exact hguar i hlabel rfl
  | crash i =>
    have hsame : t.world = s.world := hlabel
    rw [hsame]
    exact .inl ⟨rfl,rfl⟩
  | background i =>
    simp only [system,Machine.system,Machine.step,Option.map_eq_some_iff] at hstep
    obtain ⟨w,hback,rfl⟩ := hstep
    obtain ⟨_,_,rfl⟩ := Option.map_eq_some_iff.mp hback
    exact .inl ⟨rfl,rfl⟩

/-- In every interleaving of appends, statement by statement: a commit finds every stream that its
append has registered at the expected version and adds all its rows in batch order; committed
streams are numbered without gaps; a failed append has left no rows, a successful one its own once. -/
theorem appends_serialize (h : Reachable (system hashtextextended appends accepts nowV7) s) :
    Contiguous s.world.events ∧
      (∀ l t, (system hashtextextended appends accepts nowV7).step s l = some t →
        t.world.events = s.world.events ∧ t.world.commits = s.world.commits ∨
        ∃ i rows, l.client? = some i ∧ t.world.commits = s.world.commits ++ [(i,rows)] ∧
          t.world.events = s.world.events ++ rows ∧
          rows.map content = (appends i).entries.map entryContent ∧
          ∀ streamId version, (appends i).expectedVersions.get? streamId = some version →
            currentVersion s.world.events streamId.value = version ∧
            (rowsOf rows streamId.value).map Row.streamVersion =
              List.range' (version+1) (rowsOf rows streamId.value).length) ∧
      (∀ i e, s.client i = .running (.done (.error e)) → ∀ rows, (i,rows) ∉ s.world.commits) ∧
      ∀ i, s.client i = .running (.done (.ok ())) → (appends i).entries ≠ [] →
        ∃ rows, own i s.world = [rows] := by
  obtain ⟨hinv,_⟩ := reachable_sound (R := rules hashtextextended appends accepts nowV7) meets_programs
    initial_sound h
  have hended := reachable_ended (R := rules hashtextextended appends accepts nowV7) meets_programs
    initial_sound Ended.stable h
  refine ⟨hinv,fun l t hstep => ?_,fun i e he rows hrows => ?_,fun i hi => hended i _ _ hi rfl⟩
  · rcases step_commits h hstep with hsame | ⟨i,rows,hl,hcommits,hevents,hrows⟩
    · exact .inl hsame
    · refine .inr ⟨i,rows,hl,hcommits,hevents,hrows.contents,fun streamId version hversion => ?_⟩
      have hcurrent := hrows.expected streamId version hversion
      refine ⟨hcurrent,?_⟩
      rw [← hcurrent]
      exact Contiguous.append_versions hinv hrows.contiguous streamId.value
  · have hnone : own i s.world = [] := hended i _ _ he rfl
    have hmem := mem_commits.mpr hrows
    rw [hnone] at hmem
    cases hmem

end System

end Appends

namespace TwoAccounts

def source : StreamId := ⟨"source",by decide,by decide,by decide,by decide⟩

def target : StreamId := ⟨"target",by decide,by decide,by decide,by decide⟩

/-- Both appends register both accounts as empty; one writes the target, the others the source. -/
def appends (i : AppendId) : StreamWrites Unit Text where
  entries := [⟨if i = 0 then target else source,(),"Opened",.null⟩]
  expectedVersions := AList.insert target 0 (AList.insert source 0 ∅)
  declared := by
    intro e he
    rw [List.mem_singleton.mp he]
    dsimp only
    split_ifs
    · exact (AList.mem_insert _).mpr (.inl rfl)
    · exact (AList.mem_insert _).mpr (.inr ((AList.mem_insert _).mpr (.inl rfl)))

/-- One key for all streams, so that every append waits for every other. -/
abbrev interleaved : System (State AppendId (Request Unit) Answer (World Unit)
    (Except EventStoreError Unit)) (Label AppendId Choice AppendId) :=
  system (fun _ => ()) appends (fun _ => true) fun drawn => drawn

/-- The second append begins before the first one commits, and then finds the target written. -/
def labels : List (Label AppendId Choice AppendId) :=
  [.start 0 0,.start 1 0,.ask 1 .ok] ++ List.replicate 8 (.ask 0 .ok) ++
    List.replicate 4 (.ask 1 .ok) ++ [.background 1]

def ended : State AppendId (Request Unit) Answer (World Unit) (Except EventStoreError Unit) :=
  (exec interleaved ⟨{},fun _ => .waiting⟩ labels).get (by decide +kernel)

end TwoAccounts

theorem appends_serialize_twoAccounts :
    Contiguous TwoAccounts.ended.world.events ∧
      TwoAccounts.ended.world.events.map (fun row => (row.streamId,row.streamVersion)) =
        [("target",1)] ∧
      ∀ rows, (1,rows) ∉ TwoAccounts.ended.world.commits := by
  have hreachable : Reachable TwoAccounts.interleaved TwoAccounts.ended :=
    Reachable.exec (.init ⟨⟨[],contiguous_nil,rfl⟩,fun _ => rfl⟩) (Option.some_get _).symm
  have hsound := appends_serialize hreachable
  have hfailed : (TwoAccounts.ended.client 1).result? = some
      (.error (.versionConflict TwoAccounts.target 0 1)) := by decide +kernel
  exact ⟨hsound.1,by decide +kernel,hsound.2.2.1 1 _ (Client.eq_of_result? hfailed)⟩

end AppendSerialization
end EventCore
