import EventCore.FailureDecisions

/-! The attempts at one delivered position, request by request: the failure decisions are obeyed at
every moment, and the position ends as the last of them says. -/
namespace EventCore
namespace FailureDecisions
open Interaction ProjectionSource TransactionalRunner ProjectionDestination

variable {P Ev Er α β : Type}

section Rules

variable (selects : ProjectionSelectionId → PersistedEventEnvelope P → Bool)
  (source : DeliverySourceId) (config : PostgresProjectionConfig) (position : ℕ) (i : RunId)

/-- The position is obeyed at every moment of the program, and it ends as `post` says. -/
def Tells (post : List (Entry P Ev Er) → World P →
      Except (TransactionalProjectionError Er) α → Prop)
    (l : List (Entry P Ev Er)) (w : World P) (p : Runner P Ev Er α) : Prop :=
  Records (World.machine selects) i (Others i) (Obeys source config position i)
    (fun l w (r : Option (Except (TransactionalProjectionError Er) α)) =>
      ∀ a, r = some a → post l w a) l w p.run

variable {selects source config position i}
  {post : List (Entry P Ev Er) → World P → Except (TransactionalProjectionError Er) α → Prop}
  {l : List (Entry P Ev Er)} {w : World P} {a n : ℕ}

theorem Tells.pure {b : α} (hobeys : Obeys source config position i l) (h : post l w (.ok b)) :
    Tells selects source config position i post l w (Pure.pure b : Runner P Ev Er α) :=
  ⟨hobeys,fun _ hr => Option.some.inj hr ▸ h⟩

theorem Tells.throw {e : TransactionalProjectionError Er}
    (hobeys : Obeys source config position i l) (h : post l w (.error e)) :
    Tells selects source config position i post l w (MonadExcept.throw e : Runner P Ev Er α) :=
  ⟨hobeys,fun _ hr => Option.some.inj hr ▸ h⟩

theorem Tells.mono {post' : List (Entry P Ev Er) → World P →
      Except (TransactionalProjectionError Er) α → Prop} {p : Runner P Ev Er α}
    (hp : Tells selects source config position i post l w p)
    (h : ∀ l w r, Obeys source config position i l → post l w r → post' l w r) :
    Tells selects source config position i post' l w p :=
  Records.mono (fun l w _ hobeys hr r heq => h l w r hobeys (hr r heq)) hp

theorem Tells.bind {f : β → Runner P Ev Er α} {p : Runner P Ev Er β}
    (hp : Tells selects source config position i (fun l w r => match r with
      | .ok b => Tells selects source config position i post l w (f b)
      | .error e => post l w (.error e)) l w p) :
    Tells selects source config position i post l w (p >>= f) := by
  refine Records.bindExcept (Records.mono (fun l w r _ hr => ?_) hp)
  match r with
  | none => exact fun _ h => nomatch h
  | some (.error e) => exact fun _ h => Option.some.inj h ▸ hr _ rfl
  | some (.ok b) => exact hr _ rfl

theorem Tells.result {p : Runner P Ev Er α}
    (hp : Tells selects source config position i post l w p) :
    Tells selects source config position i (fun l w r => ∃ r', r = .ok r' ∧ post l w r') l w
      (TransactionalRunner.result p) := by
  refine Records.bind (Records.mono (fun l w r hobeys hr => ?_) hp)
  match r with
  | none => exact fun _ h => nomatch h
  | some r => exact ⟨hobeys,fun _ h => ⟨r,(Option.some.inj h).symm,hr r rfl⟩⟩

theorem Tells.ask {q : Request P Ev Er}
    {post : List (Entry P Ev Er) → World P →
      Except (TransactionalProjectionError Er) (Answer P Ev Er q) → Prop}
    (hobeys : Obeys source config position i l)
    (h : ∀ w' c b w'', Others i w w' → w'.perform selects i q c = some (b,w'') →
      Obeys source config position i (l ++ [⟨w',q,b,w''⟩]) ∧
        post (l ++ [⟨w',q,b,w''⟩]) w'' (.ok b)) :
    Tells selects source config position i post l w (TransactionalRunner.ask q) := by
  refine ⟨hobeys,fun w' hw c b w'' hperform => ?_⟩
  obtain ⟨hobeys',hpost⟩ := h w' c b w'' hw hperform
  exact ⟨hobeys',fun _ hr => Option.some.inj hr ▸ hpost⟩

/-- A request to the server that fails with `e`, commits apart. -/
theorem Tells.db {q : DbRequest} {e : TransactionalProjectionError Er}
    {post : List (Entry P Ev Er) → World P →
      Except (TransactionalProjectionError Er) q.Reply → Prop}
    (hq : q ≠ .commit) (hgoing : Going source config position i a n l)
    (hok : ∀ w' r w'', Others i w w' → (w'.session i).lost = false →
      w'.execute i q = some (r,w'') → Unchanged (⟨w',.db q,.ok r,w''⟩ : Entry P Ev Er) →
      post (l ++ [⟨w',.db q,.ok r,w''⟩]) w'' (.ok r))
    (herror : ∀ x w', kind x = .other → Unchanged x → post (l ++ [x]) w' (.error e)) :
    Tells selects source config position i post l w (TransactionalRunner.db e q) := by
  refine Tells.bind (Tells.ask hgoing.obeys fun w' c b w'' hw hperform => ?_)
  have hunchanged : Unchanged (⟨w',.db q,b,w''⟩ : Entry P Ev Er) := by
    rcases performDb_cases hperform with ⟨-,rfl⟩ | ⟨-,r,hexecute,-⟩
    · exact ⟨rfl,rfl⟩
    · exact execute_unchanged hq hexecute
  have hobeys := (hgoing.other (x := ⟨w',.db q,b,w''⟩) rfl hunchanged).obeys
  refine ⟨hobeys,?_⟩
  cases b with
  | error u => exact Tells.throw hobeys (herror _ _ rfl hunchanged)
  | ok r =>
    refine Tells.pure hobeys ?_
    rcases performDb_cases hperform with ⟨hb,-⟩ | ⟨hlost,r',hexecute,hb | hb⟩
    · cases hb
    · cases hb
      exact hok w' r w'' hw hlost hexecute hunchanged
    · cases hb

theorem tells_positionIsPending (hgoing : Going source config position i a n l)
    (hheld : Holds i w (some {})) :
    Tells selects source config position i (fun l' w' r => ∃ g, l' = l ++ [g] ∧
      kind g = .other ∧ Unchanged g ∧ match r with
        | .ok true => FoundPending source config position g ∧ Holds i w' (some {})
        | .ok false => True
        | .error e => Infrastructure e) l w
      (positionIsPending source config position : Runner P Ev Er Bool) := by
  have hload : Tells selects source config position i (fun l' w' r => ∃ g, l' = l ++ [g] ∧
      kind g = .other ∧ Unchanged g ∧ match r with
        | .ok progress => (∃ u, g = ⟨u,.db .loadProgress,.ok progress,w'⟩) ∧ Holds i w' (some {})
        | .error e => e = .progressStore) l w
      (loadProgress : Runner P Ev Er (Option ProjectionProgress)) := by
    refine Tells.db (by simp) hgoing (fun w' r w'' hw hlost hexecute hx => ?_)
      fun x w' hkind hx => ⟨x,rfl,hkind,hx,rfl⟩
    refine ⟨_,rfl,rfl,hx,⟨w',rfl⟩,?_⟩
    obtain ⟨_,_,heq⟩ := Option.map_eq_some_iff.mp hexecute
    obtain rfl := (Prod.mk.inj heq).2
    exact hheld.others hw
  refine Tells.bind (hload.result.mono fun l' w' r hobeys ⟨r',hr,g,hl',hkind,hx,hcase⟩ => ?_)
  subst hr
  match r' with
  | .error e =>
    refine Tells.throw hobeys ⟨g,hl',hkind,hx,?_⟩
    rw [show e = .progressStore from hcase]
    trivial
  | .ok none =>
    obtain ⟨⟨u,rfl⟩,hheld'⟩ := hcase
    exact Tells.pure hobeys ⟨_,hl',hkind,hx,⟨u,w',none,rfl,fun _ h => nomatch h⟩,hheld'⟩
  | .ok (some progress) =>
    obtain ⟨⟨u,rfl⟩,hheld'⟩ := hcase
    unfold validateIdentity
    by_cases hsource : progress.sourceId = source
    · by_cases hselection : progress.selectionId = config.selection
      · simp only [hsource,hselection,ne_eq,not_true_eq_false,if_false]
        refine Tells.pure hobeys ⟨_,hl',hkind,hx,?_⟩
        by_cases hlt : progress.position < position
        · rw [decide_eq_true hlt]
          refine ⟨⟨u,w',some progress,rfl,?_⟩,hheld'⟩
          rintro _ ⟨⟩
          exact ⟨hsource,hselection,hlt⟩
        · rw [decide_eq_false hlt]
          trivial
      · simp only [hsource,hselection,ne_eq,not_true_eq_false,not_false_eq_true,if_false,if_true]
        exact Tells.throw hobeys ⟨_,hl',hkind,hx,trivial⟩
    · simp only [hsource,ne_eq,not_false_eq_true,if_true]
      exact Tells.throw hobeys ⟨_,hl',hkind,hx,trivial⟩

theorem tells_rollbackPreservingError {e : TransactionalProjectionError Er}
    (hgoing : Going source config position i a n l)
    (h : ∀ x w', kind x = .other → Unchanged x → post (l ++ [x]) w' (.error e) ∧
      post (l ++ [x]) w' (.error .leadershipLost)) :
    Tells selects source config position i post l w
      (rollbackPreservingError e : Runner P Ev Er α) := by
  refine Tells.bind (Tells.ask hgoing.obeys fun w' c b w'' hw hperform => ?_)
  have hunchanged : Unchanged (⟨w',.db .rollback,b,w''⟩ : Entry P Ev Er) := by
    rcases performDb_cases hperform with ⟨-,rfl⟩ | ⟨-,r,hexecute,-⟩
    · exact ⟨rfl,rfl⟩
    · exact execute_unchanged (by simp) hexecute
  have hobeys := (hgoing.other (x := ⟨w',.db .rollback,b,w''⟩) rfl hunchanged).obeys
  obtain ⟨herror,hlost⟩ := h ⟨w',.db .rollback,b,w''⟩ w'' rfl hunchanged
  refine ⟨hobeys,?_⟩
  cases b with
  | error u => exact Tells.throw hobeys hlost
  | ok r => exact Tells.throw hobeys herror

theorem tells_whenPending {pending : Runner P Ev Er EnvelopeResult}
    {Q : List (Entry P Ev Er) → Except (TransactionalProjectionError Er) EnvelopeResult → Prop}
    (hgoing : Going source config position i a n l)
    (hpending : ∀ b g w', kind b = .other → Unchanged b → kind g = .other → Unchanged g →
      Begun b → FoundPending source config position g → Holds i w' (some {}) →
      Tells selects source config position i (fun l _ r => Q l r) (l ++ [b] ++ [g]) w' pending)
    (helse : ∀ l' r, Adds l l' →
      (r = .ok .suppressed ∨ ∃ e, r = .error e ∧ Infrastructure e) → Q l' r) :
    Tells selects source config position i (fun l _ r => Q l r) l w
      (whenPending source config position pending) := by
  refine Tells.bind (Tells.db (by simp) hgoing (fun w' r w'' hw hlost hexecute hx => ?_)
    fun x w' hkind hx => helse _ _ ((Adds.refl l).concat hkind hx) (.inr ⟨_,rfl,trivial⟩))
  have hheld : Holds i w'' (some {}) := by
    simp only [World.execute] at hexecute
    cases htx : (w'.session i).transaction with
    | none =>
      simp only [htx] at hexecute
      obtain rfl := (Prod.mk.inj (Option.some.inj hexecute)).2
      exact .inr (by simp [World.setTransaction])
    | some _ => simp [htx] at hexecute
  have hgoing' := hgoing.other rfl hx
  refine Tells.bind ((tells_positionIsPending hgoing' hheld).result.mono
    fun l' w₁ r _ hresult => ?_)
  obtain ⟨r',hr,g,hl',hkind,hg,hcase⟩ := hresult
  subst hr hl'
  have hadds := ((Adds.refl l).concat (x := ⟨w',.db .begin,.ok r,w''⟩) rfl hx).concat hkind hg
  rcases r' with e | _ | _
  · refine tells_rollbackPreservingError (hgoing'.other hkind hg) fun x w₂ hkind' hx' => ⟨?_,?_⟩
    · exact helse _ _ (hadds.concat hkind' hx') (.inr ⟨e,rfl,hcase⟩)
    · exact helse _ _ (hadds.concat hkind' hx') (.inr ⟨_,rfl,trivial⟩)
  · refine Tells.bind (Tells.db (by simp) (hgoing'.other hkind hg) (fun u r u' _ _ _ hx' => ?_)
      fun x u hkind' hx' => helse _ _ (hadds.concat hkind' hx') (.inr ⟨_,rfl,trivial⟩))
    exact Tells.pure ((hgoing'.other hkind hg).other rfl hx').obeys
      (helse _ _ (hadds.concat rfl hx') (.inl rfl))
  · exact hpending _ g w₁ rfl hx hkind hg ⟨w',w'',rfl⟩ hcase.1 hcase.2

theorem Adds.settles {applications : List Application} {l' : List (Entry P Ev Er)}
    (h : Adds l l') : Settles source config position applications l l' := by
  obtain ⟨l₁,hl',hother⟩ := h
  exact ⟨l₁,hl',fun x hx => ⟨(hother x hx).1,.inl (hother x hx).2⟩⟩

theorem Settles.concat {applications : List Application} {l' : List (Entry P Ev Er)}
    {x : Entry P Ev Er} (h : Settles source config position applications l l')
    (hkind : kind x = .other)
    (hx : Unchanged x ∨ Commits source config position applications x) :
    Settles source config position applications l (l' ++ [x]) := by
  obtain ⟨l₁,rfl,hother⟩ := h
  refine ⟨l₁ ++ [x],List.append_assoc ..,List.forall_mem_append.mpr ⟨hother,?_⟩⟩
  simpa using ⟨hkind,hx⟩

theorem tells_advanceProgress {applications : List Application}
    (hgoing : Going source config position i a n l) (hheld : Holds i w (some ⟨applications,none⟩))
    (progress : ProjectionProgress) :
    Tells selects source config position i (fun l' w' r => Adds l l' ∧ match r with
      | .ok _ => Holds i w' (some ⟨applications,some progress⟩)
      | .error e => e = .progressStore) l w
      (advanceProgress progress : Runner P Ev Er Unit) := by
  unfold advanceProgress
  by_cases hposition : progress.position ≤ i64Max
  · rw [if_pos hposition]
    refine Tells.db (by simp) hgoing (fun w' r w'' hw hlost hexecute hx => ?_)
      fun x w' hkind hx => ⟨(Adds.refl l).concat hkind hx,rfl⟩
    refine ⟨(Adds.refl l).concat rfl hx,.inr ?_⟩
    have htx : (w'.session i).transaction = some ⟨applications,none⟩ :=
      (hheld.others hw).resolve_left (by simp [hlost])
    simp only [World.execute,htx,Option.map_some] at hexecute
    obtain rfl := (Prod.mk.inj (Option.some.inj hexecute)).2
    simp [World.setTransaction]
  · rw [if_neg hposition]
    exact Tells.throw hgoing.obeys ⟨Adds.refl l,rfl⟩

theorem tells_commitAt {applications : List Application}
    (hgoing : Going source config position i a n l)
    (hmay : MayCommit config position i applications l)
    (hheld : Holds i w (some ⟨applications,none⟩)) :
    Tells selects source config position i (fun l' _ r =>
      Settles source config position applications l l' ∧ match r with
        | .ok _ => ∃ x ∈ l', Commits source config position applications x
        | .error e => Infrastructure e) l w
      (commitAt source config position : Runner P Ev Er Unit) := by
  refine Tells.bind ((tells_advanceProgress hgoing hheld _).result.mono
    fun l' w' r hobeys ⟨r',hr,hadds,hcase⟩ => ?_)
  subst hr
  have hgoing' := hgoing.adds hadds
  match r' with
  | .error e =>
    rw [show e = .progressStore from hcase]
    exact tells_rollbackPreservingError hgoing' fun x u hkind hx =>
      ⟨⟨(hadds.concat hkind hx).settles,trivial⟩,(hadds.concat hkind hx).settles,trivial⟩
  | .ok _ =>
    have hheld' : Holds i w' (some ⟨applications,some ⟨source,config.selection,position⟩⟩) := hcase
    refine Tells.bind (Tells.ask hobeys fun u c b u' hu hperform => ?_)
    have hcommit : Unchanged (⟨u,.db .commit,b,u'⟩ : Entry P Ev Er) ∧ b = .error () ∨
        Commits source config position applications (⟨u,.db .commit,b,u'⟩ : Entry P Ev Er) := by
      rcases performDb_cases hperform with ⟨hb,rfl⟩ | ⟨hlost,r,hexecute,-⟩
      · exact .inl ⟨⟨rfl,rfl⟩,hb⟩
      · have htx := (hheld'.others hu).resolve_left (by simp [hlost])
        simp only [World.execute,htx,Option.map_some] at hexecute
        obtain rfl := (Prod.mk.inj (Option.some.inj hexecute)).2
        exact .inr ⟨rfl,rfl⟩
    have hsettles : Settles source config position applications l
        (l' ++ [⟨u,.db .commit,b,u'⟩]) :=
      hadds.settles.concat rfl (hcommit.imp_left And.left)
    have hobeys' := hsettles.obeys hgoing hmay
    refine ⟨hobeys',?_⟩
    cases b with
    | error _ => exact Tells.throw hobeys' ⟨hsettles,trivial⟩
    | ok _ =>
      rcases hcommit with ⟨-,hb⟩ | hcommits
      · cases hb
      · exact Tells.pure hobeys' ⟨hsettles,_,by simp,hcommits⟩

def SkipResult (r : Except (TransactionalProjectionError Er) EnvelopeResult) : Prop :=
  r = .ok .skipped ∨ r = .ok .suppressed ∨ ∃ e, r = .error e ∧ Infrastructure e

theorem Ended.of_settles {applications : List Application} {l' : List (Entry P Ev Er)}
    {r : Except (TransactionalProjectionError Er) EnvelopeResult}
    (h : Settles source config position applications l l')
    (hends : ∀ x ∈ l, (kind x).EndsAs config position r)
    (hskipped : r = .ok .skipped → ∃ x ∈ l', Commits source config position [] x) :
    Ended source config position l' r := by
  obtain ⟨l₁,rfl,hother⟩ := h
  refine ⟨List.forall_mem_append.mpr ⟨hends,fun x hx => ?_⟩,hskipped⟩
  rw [(hother x hx).1]
  trivial

theorem tells_skipPosition (hgoing : Going source config position i a n l)
    (hgives : ∀ x ∈ l, ¬(kind x).GivesUp config.maxRetries)
    (hends : ∀ x ∈ l, ∀ r : Except (TransactionalProjectionError Er) EnvelopeResult,
      SkipResult r → (kind x).EndsAs config position r) :
    Tells selects source config position i (fun l' _ r => Ended source config position l' r) l w
      (skipPosition source config position : Runner P Ev Er EnvelopeResult) := by
  refine tells_whenPending hgoing (fun b g w' hb hxb hg hxg _ _ hheld => ?_)
    fun l' r hadds hr => ?_
  · have hgoing' := (hgoing.other hb hxb).other hg hxg
    have hadds := ((Adds.refl l).concat hb hxb).concat hg hxg
    have hmay : MayCommit config position i [] (l ++ [b] ++ [g]) := by
      refine ⟨.inl rfl,?_,.inl rfl⟩
      simp only [List.forall_mem_append,List.forall_mem_singleton,hb,hg]
      exact ⟨⟨hgives,id⟩,id⟩
    have hends' : ∀ x ∈ l ++ [b] ++ [g],
        ∀ r : Except (TransactionalProjectionError Er) EnvelopeResult,
          SkipResult r → (kind x).EndsAs config position r := by
      simp only [List.forall_mem_append,List.forall_mem_singleton,hb,hg]
      exact ⟨⟨hends,fun _ _ => trivial⟩,fun _ _ => trivial⟩
    refine Tells.bind ((tells_commitAt hgoing' hmay hheld).mono
      fun l' w'' r hobeys ⟨hsettles,hcase⟩ => ?_)
    match r with
    | .error e =>
      exact .of_settles hsettles (fun x hx => hends' x hx _ (.inr (.inr ⟨e,rfl,hcase⟩)))
        fun h => nomatch h
    | .ok _ =>
      exact Tells.pure hobeys (.of_settles hsettles (fun x hx => hends' x hx _ (.inl rfl))
        fun _ => hcase)
  · have hnot : r ≠ .ok .skipped := by
      rcases hr with rfl | ⟨e,rfl,-⟩ <;> simp
    have hsettles : Settles source config position [] l l' := hadds.settles
    exact .of_settles hsettles (fun x hx => hends x hx r (.inr hr)) fun h => absurd h hnot

def Kind.Goes (maxRetries : ℕ) : Kind → Prop
  | .applied | .other => True
  | .decided attempt .retry => attempt ≤ maxRetries
  | _ => False

theorem Kind.Goes.not_givesUp {k : Kind} (h : k.Goes config.maxRetries) :
    ¬k.GivesUp config.maxRetries := by
  cases k with
  | decided attempt decision =>
    cases decision with
    | retry => exact not_lt.mpr h
    | skip | stop | fatal => exact h.elim
  | undecodable => exact h.elim
  | applied | other => exact id

theorem Kind.Goes.not_skips {k : Kind} (h : k.Goes config.maxRetries) : ¬k.Skips := by
  cases k with
  | decided attempt decision =>
    cases decision with
    | skip => exact fun _ => h
    | retry | stop | fatal => exact id
  | undecodable | applied | other => exact id

theorem Kind.Goes.endsAs {k : Kind} (h : k.Goes config.maxRetries)
    (r : Except (TransactionalProjectionError Er) EnvelopeResult) :
    k.EndsAs config position r := by
  cases k with
  | decided attempt decision =>
    cases decision with
    | retry => exact .inl h
    | skip | stop | fatal => exact h.elim
  | undecodable => exact h.elim
  | applied | other => trivial

theorem write_unchanged (w : World P) (i : RunId) (application : Application) :
    (w.write i application).readModel = w.readModel ∧
      (w.write i application).progress = w.progress := by
  unfold World.write
  split <;> exact ⟨rfl,rfl⟩

theorem Holds.write (h : Holds i w (some {})) (application : Application) :
    Holds i (w.write i application) (some ⟨[application],none⟩) := by
  unfold World.write
  rcases h with hlost | htx
  · split
    · exact .inl hlost
    · exact .inl (by simpa [World.setTransaction] using hlost)
  · rw [htx]
    exact .inr (by simp [World.setTransaction])

theorem tells_apply (hgoing : Going source config position i a n l) (ha : a ≤ config.maxRetries)
    (hopened : Opened source config position l) (hheld : Holds i w (some {})) (event : Ev) :
    Tells selects source config position i (fun l' w' r => ∃ x, l' = l ++ [x] ∧
      kind x = .applied ∧ Going source config position i (a+1) n l' ∧
        ∃ b : Except Er Application, r = .ok b ∧ ∀ application, b = .ok application →
          Effects position i [application] ∧ Holds i w' (some ⟨[application],none⟩)) l w
      (ask (.apply event position) : Runner P Ev Er _) := by
  refine Tells.ask hgoing.obeys fun w' c b w'' hw hperform => ?_
  cases c with
  | applied outcome =>
    obtain ⟨hb,hw''⟩ := Prod.mk.inj (Option.some.inj hperform)
    have hnext := hgoing.attempt ha hopened (x := ⟨w',.apply event position,b,w''⟩) rfl
      (hheld.others hw) (hw'' ▸ write_unchanged w' i _)
    refine ⟨hnext.obeys,_,rfl,rfl,hnext,b,rfl,fun application happlication => ?_⟩
    cases outcome with
    | error e => exact absurd (hb.trans happlication) (by simp [Except.map])
    | ok u =>
      obtain rfl := Except.ok.inj (hb.trans happlication)
      exact ⟨.inr ⟨_,rfl,rfl,rfl,rfl⟩,hw'' ▸ (hheld.others hw).write _⟩
  | _ => cases hperform

theorem tells_onError (hgoing : Going source config position i a n l) (error : Er) :
    Tells selects source config position i (fun l' _ r => ∃ x decision, l' = l ++ [x] ∧
      kind x = .decided (n+1) decision ∧ Going source config position i a (n+1) l' ∧
        r = .ok decision) l w
      (ask (.onError position error (n+1)) : Runner P Ev Er _) := by
  refine Tells.ask hgoing.obeys fun w' c b w'' hw hperform => ?_
  cases c with
  | decided decision =>
    obtain ⟨rfl,hw''⟩ := Prod.mk.inj (Option.some.inj hperform)
    have hx : Unchanged (⟨w',.onError position error (n+1),decision,w''⟩ : Entry P Ev Er) := by
      rw [← hw'']
      cases decision <;> exact ⟨rfl,rfl⟩
    have hnext := hgoing.decide rfl hx
    exact ⟨hnext.obeys,_,decision,rfl,rfl,hnext,rfl⟩
  | _ => cases hperform

theorem tells_retrySleep (hgoing : Going source config position i a n l) (attempt : ℕ) :
    Tells selects source config position i (fun l' _ r => ∃ x, l' = l ++ [x] ∧
      kind x = .other ∧ Unchanged x ∧ r = .ok ()) l w
      (ask (.retrySleep attempt) : Runner P Ev Er _) := by
  refine Tells.ask hgoing.obeys fun w' c b w'' hw hperform => ?_
  cases c with
  | ok =>
    obtain ⟨-,rfl⟩ := Prod.mk.inj (Option.some.inj hperform)
    have hx : Unchanged (⟨w',.retrySleep attempt,b,w'⟩ : Entry P Ev Er) := ⟨rfl,rfl⟩
    exact ⟨(hgoing.other rfl hx).obeys,_,rfl,rfl,hx,rfl⟩
  | _ => cases hperform

theorem tells_succeeded {application : Application} (hgoing : Going source config position i a n l)
    (hgoes : ∀ x ∈ l, (kind x).Goes config.maxRetries)
    (heffects : Effects position i [application])
    (hheld : Holds i w (some ⟨[application],none⟩)) :
    Tells selects source config position i (fun l' _ r => Ended source config position l' r) l w
      (do
        commitAt source config position
        ask (.execute application) >>= orThrow (.afterCommitFailed position)
        pure .processed : Runner P Ev Er EnvelopeResult) := by
  have hmay : MayCommit config position i [application] l :=
    ⟨heffects,fun x hx => (hgoes x hx).not_givesUp,.inr fun x hx => (hgoes x hx).not_skips⟩
  refine Tells.bind ((tells_commitAt hgoing hmay hheld).mono
    fun l' w' r hobeys ⟨hsettles,hcase⟩ => ?_)
  match r with
  | .error e => exact .of_settles hsettles (fun x hx => (hgoes x hx).endsAs _) fun h => nomatch h
  | .ok _ =>
    refine Tells.bind (Tells.bind (Tells.ask hobeys fun u c b u' hu hperform => ?_))
    have hx : Unchanged (⟨u,.execute application,b,u'⟩ : Entry P Ev Er) := by
      cases c with
      | ok | fail =>
        obtain ⟨-,rfl⟩ := Prod.mk.inj (Option.some.inj hperform)
        exact ⟨rfl,rfl⟩
      | _ => cases hperform
    have hsettles' : Settles source config position [application] l
        (l' ++ [⟨u,.execute application,b,u'⟩]) := hsettles.concat rfl (.inl hx)
    have hobeys' := hsettles'.obeys hgoing hmay
    have hended : ∀ r : Except (TransactionalProjectionError Er) EnvelopeResult,
        r ≠ .ok .skipped → Ended source config position
          (l' ++ [⟨u,.execute application,b,u'⟩]) r := fun r hr =>
      .of_settles hsettles' (fun x hx => (hgoes x hx).endsAs _) fun h => absurd h hr
    refine ⟨hobeys',?_⟩
    cases b with
    | error _ => exact Tells.throw hobeys' (hended _ (by simp))
    | ok _ => exact Tells.pure hobeys' (Tells.pure hobeys' (hended _ (by simp)))

theorem Ended.adds {l' : List (Entry P Ev Er)}
    {r : Except (TransactionalProjectionError Er) EnvelopeResult} (hadds : Adds l l')
    (h : ∀ x ∈ l, (kind x).Goes config.maxRetries) (hr : r ≠ .ok .skipped) :
    Ended source config position l' r := by
  have hsettles : Settles source config position [] l l' := hadds.settles
  exact .of_settles hsettles (fun x hx => (h x hx).endsAs r) fun hskip => absurd hskip hr

theorem Ended.concat {x : Entry P Ev Er} {decision : ProjectionFailureDecision} {attempt : ℕ}
    {r : Except (TransactionalProjectionError Er) EnvelopeResult}
    (h : ∀ x ∈ l, (kind x).Goes config.maxRetries) (hkind : kind x = .decided attempt decision)
    (hends : (Kind.decided attempt decision).EndsAs config position r) (hr : r ≠ .ok .skipped)
    {l' : List (Entry P Ev Er)} (hadds : Adds (l ++ [x]) l') :
    Ended source config position l' r := by
  have hsettles : Settles source config position [] (l ++ [x]) l' := hadds.settles
  refine .of_settles hsettles (List.forall_mem_append.mpr ⟨fun y hy => (h y hy).endsAs r,?_⟩)
    fun hskip => absurd hskip hr
  rw [List.forall_mem_singleton,hkind]
  exact hends

theorem tells_attempt (event : Ev) (retriesLeft : ℕ)
    (hgoing : Going source config position i a a l)
    (hgoes : ∀ x ∈ l, (kind x).Goes config.maxRetries)
    (hleft : a+retriesLeft = config.maxRetries) (hopened : Opened source config position l)
    (hheld : Holds i w (some {}))
    (hretry : ∀ m l' w', retriesLeft = m+1 → Going source config position i (a+1) (a+1) l' →
      (∀ x ∈ l', (kind x).Goes config.maxRetries) →
      Tells selects source config position i (fun l' _ r => Ended source config position l' r) l' w'
        (do
          let _ ← ask (.retrySleep (a+1))
          whenPending source config position (applyLoop source config event position m (a+1+1)) :
          Runner P Ev Er EnvelopeResult)) :
    Tells selects source config position i (fun l' _ r => Ended source config position l' r) l w
      (applyLoop source config event position retriesLeft (a+1) :
        Runner P Ev Er EnvelopeResult) := by
  rw [applyLoop.eq_def]
  refine Tells.bind ((tells_apply hgoing (by omega) hopened hheld event).mono
    fun l₁ w₁ r _ ⟨x,hl₁,hkind,hgoing₁,b,hr,hb⟩ => ?_)
  subst hr hl₁
  have hgoes₁ : ∀ y ∈ l ++ [x], (kind y).Goes config.maxRetries := by
    simp only [List.forall_mem_append,List.forall_mem_singleton,hkind]
    exact ⟨hgoes,trivial⟩
  match b with
  | .ok application =>
    obtain ⟨heffects,hheld₁⟩ := hb application rfl
    exact tells_succeeded hgoing₁ hgoes₁ heffects hheld₁
  | .error error =>
    refine Tells.bind ((tells_onError hgoing₁ error).mono
      fun l₂ w₂ r _ ⟨y,decision,hl₂,hkind',hgoing₂,hr⟩ => ?_)
    subst hr hl₂
    have hlost : (Kind.decided (a+1) decision).EndsAs config position
        (.error .leadershipLost : Except (TransactionalProjectionError Er) EnvelopeResult) := by
      cases decision with
      | retry => exact .inr (.inr rfl)
      | skip => exact .inr (.inr ⟨_,rfl,trivial⟩)
      | stop | fatal => exact .inr rfl
    refine Tells.bind (Tells.db (by simp) hgoing₂ (fun u r u' _ _ _ hz => ?_) fun z u hz hz' =>
      .concat hgoes₁ hkind' hlost (by simp) ((Adds.refl _).concat hz hz'))
    have hgoing₃ := hgoing₂.other (x := ⟨u,.db .rollback,.ok r,u'⟩) rfl hz
    have hadds := (Adds.refl (l ++ [x] ++ [y])).concat
      (x := ⟨u,.db .rollback,.ok r,u'⟩) rfl hz
    cases decision with
    | retry =>
      cases retriesLeft with
      | zero =>
        exact Tells.throw hgoing₃.obeys
          (.concat hgoes₁ hkind' (.inr (.inl ⟨error,rfl⟩)) (by simp) hadds)
      | succ m =>
        refine hretry m _ _ rfl hgoing₃ ?_
        simp only [List.forall_mem_append,List.forall_mem_singleton,hkind'] at hgoes₁ ⊢
        refine ⟨⟨hgoes₁,?_⟩,trivial⟩
        show a+1 ≤ config.maxRetries
        omega
    | skip =>
      refine tells_skipPosition hgoing₃ ?_ ?_
      · simp only [List.forall_mem_append,List.forall_mem_singleton,hkind'] at hgoes₁ ⊢
        exact ⟨⟨⟨fun x hx => (hgoes₁.1 x hx).not_givesUp,hgoes₁.2.not_givesUp⟩,id⟩,id⟩
      · simp only [List.forall_mem_append,List.forall_mem_singleton,hkind'] at hgoes₁ ⊢
        exact ⟨⟨⟨fun x hx r _ => (hgoes₁.1 x hx).endsAs r,fun r _ => hgoes₁.2.endsAs r⟩,
          fun r hr => hr⟩,fun _ _ => trivial⟩
    | stop =>
      exact Tells.pure hgoing₃.obeys (.concat hgoes₁ hkind' (.inl rfl) (by simp) hadds)
    | fatal =>
      exact Tells.throw hgoing₃.obeys (.concat hgoes₁ hkind' (.inl ⟨error,rfl⟩) (by simp) hadds)

/-- The attempts at an event, given that `a` of them failed and were to be retried. -/
theorem tells_applyLoop (event : Ev) (retriesLeft : ℕ)
    (hgoing : Going source config position i a a l)
    (hgoes : ∀ x ∈ l, (kind x).Goes config.maxRetries)
    (hleft : a+retriesLeft = config.maxRetries) (hopened : Opened source config position l)
    (hheld : Holds i w (some {})) :
    Tells selects source config position i (fun l' _ r => Ended source config position l' r) l w
      (applyLoop source config event position retriesLeft (a+1) :
        Runner P Ev Er EnvelopeResult) := by
  induction retriesLeft generalizing l w a with
  | zero => exact tells_attempt event 0 hgoing hgoes hleft hopened hheld fun _ _ _ h => nomatch h
  | succ retriesLeft ih =>
    refine tells_attempt event (retriesLeft+1) hgoing hgoes hleft hopened hheld
      fun m l₁ w₁ hm hgoing₁ hgoes₁ => ?_
    obtain rfl := Nat.succ.inj hm
    refine Tells.bind ((tells_retrySleep hgoing₁ (a+1)).mono
      fun l₂ w₂ r _ ⟨x,hl₂,hkind,hx,hr⟩ => ?_)
    subst hr hl₂
    have hgoes₂ : ∀ y ∈ l₁ ++ [x], (kind y).Goes config.maxRetries := by
      simp only [List.forall_mem_append,List.forall_mem_singleton,hkind]
      exact ⟨hgoes₁,trivial⟩
    refine tells_whenPending (hgoing₁.other hkind hx)
      (fun b g w₃ hb hxb hg hxg hbegun hfound hheld₃ => ?_) fun l' r hadds hr =>
        .adds hadds hgoes₂ (by rcases hr with rfl | ⟨e,rfl,-⟩ <;> simp)
    refine ih (((hgoing₁.other hkind hx).other hb hxb).other hg hxg) ?_ (by omega)
      ⟨l₁ ++ [x],b,g,[],by simp,hbegun,hfound,.inl rfl⟩ hheld₃
    simp only [List.forall_mem_append,List.forall_mem_singleton,hb,hg] at hgoes₂ ⊢
    exact ⟨⟨hgoes₂,trivial⟩,trivial⟩

variable (selects source config) in
theorem tells_processEnvelope (envelope : PersistedEventEnvelope P) (w : World P) :
    Tells selects source config envelope.position i
      (fun l _ r => Ended source config envelope.position l r) [] w
      (processEnvelope source config envelope : Runner P Ev Er EnvelopeResult) := by
  have hgoing : Going source config envelope.position i 0 0 ([] : List (Entry P Ev Er)) :=
    ⟨rfl,rfl,Nat.zero_le _,fun l x hl => absurd (List.prefix_nil.mp hl) (by simp),by simp⟩
  refine tells_whenPending hgoing (fun b g w₁ hb hxb hg hxg hbegun hfound hheld => ?_)
    fun l' r hadds hr => .adds hadds (by simp) (by rcases hr with rfl | ⟨e,rfl,-⟩ <;> simp)
  have hgoing₁ := (hgoing.other hb hxb).other hg hxg
  refine Tells.bind (Tells.ask hgoing₁.obeys fun w₂ c a w₃ hw hperform => ?_)
  cases c with
  | decoded decoded =>
    obtain ⟨rfl,rfl⟩ := Prod.mk.inj (Option.some.inj hperform)
    match decoded with
    | .error u =>
      have hgoing₂ := hgoing₁.silent (x := ⟨w₂,.decode envelope,.error u,w₂⟩) rfl rfl ⟨rfl,rfl⟩
      refine ⟨hgoing₂.obeys,tells_rollbackPreservingError hgoing₂ fun x w' hkind hx => ?_⟩
      have hended : ∀ r : Except (TransactionalProjectionError Er) EnvelopeResult,
          r = .error (.decode envelope.position) ∨ r = .error .leadershipLost →
          Ended source config envelope.position
            ([] ++ [b] ++ [g] ++ [⟨w₂,.decode envelope,.error u,w₂⟩] ++ [x]) r := by
        intro r hr
        refine ⟨?_,fun h => by simp [h] at hr⟩
        simp only [List.forall_mem_append,List.forall_mem_singleton,hb,hg,hkind]
        exact ⟨⟨⟨⟨by simp,trivial⟩,trivial⟩,hr⟩,trivial⟩
      exact ⟨hended _ (.inl rfl),hended _ (.inr rfl)⟩
    | .ok event =>
      have hgoing₂ := hgoing₁.other (x := ⟨w₂,.decode envelope,.ok event,w₂⟩) rfl ⟨rfl,rfl⟩
      refine ⟨hgoing₂.obeys,tells_applyLoop event config.maxRetries hgoing₂ ?_ (Nat.zero_add _)
        ⟨[],b,g,_,rfl,hbegun,hfound,.inr ⟨_,_,_,_,rfl⟩⟩ (hheld.others hw)⟩
      simp only [List.forall_mem_append,List.forall_mem_singleton,hb,hg]
      exact ⟨⟨⟨by simp,trivial⟩,trivial⟩,trivial⟩
  | _ => cases hperform

end Rules

/-- Whatever `apply` and `on_error` answer, however requests fail and whatever the others do: the
exchanges for one position obey the decisions at every moment, and it ends as the last of them
says. -/
theorem failure_decisions_obeyed {selects : ProjectionSelectionId → PersistedEventEnvelope P → Bool}
    {source : DeliverySourceId} {config : PostgresProjectionConfig}
    {envelope : PersistedEventEnvelope P} {i : RunId} {w w' : World P}
    {l : List (Entry P Ev Er)}
    {p : Program (Request P Ev Er) (Answer P Ev Er)
      (Except (TransactionalProjectionError Er) EnvelopeResult)}
    (h : Conversation (World.machine selects) i (Others i) w
      (processEnvelope source config envelope).run l w' p) :
    Obeys source config envelope.position i l ∧
      ∀ r, p = .done r → Ended source config envelope.position l r := by
  have hrecords : Records (World.machine selects) i (Others i)
      (Obeys source config envelope.position i)
      (fun l _ r => ∀ a, r = some a → Ended source config envelope.position l a) [] w
      (processEnvelope source config envelope : Runner P Ev Er EnvelopeResult).run :=
    tells_processEnvelope selects source config envelope w
  have htrans : ∀ u v w : World P, Others i u v → Others i v w → Others i u w :=
    fun _ _ _ => Others.trans
  obtain ⟨hobeys,hended⟩ := h.sound htrans (Others.refl i) hrecords
  exact ⟨hobeys,fun r hr => hended (some r) (by rw [hr]; rfl) r rfl⟩

def oneRetry : PostgresProjectionConfig where
  selection := "all"
  batchSize := 10
  batchSize_pos := by decide
  maxRetries := 1
  maxRetries_lt := by decide
  continuous := false

def bothFail : List (Choice ℕ String) :=
  [.ok,.ok,.decoded (.ok 7),.applied (.error "refused"),.decided .retry,.ok,.ok,
    .ok,.ok,.applied (.error "refused"),.decided .retry,.ok]

def bothFailed : List (Entry Unit ℕ String) × World Unit ×
    Program (Request Unit ℕ String) (Answer Unit ℕ String)
      (Except (TransactionalProjectionError String) EnvelopeResult) :=
  (converse (World.machine fun _ _ => true) 0 {}
    (processEnvelope "orders" oneRetry ⟨5,()⟩).run bothFail).get (by decide +kernel)

theorem bothFailed_ended :
    bothFailed.2.2 = .done (.error (.retryExhausted 5 2 "refused")) :=
  Program.eq_of_ended (by decide +kernel)

theorem failure_decisions_obeyed_both_fail :
    appliedIn bothFailed.1 = 2 ∧ attemptsIn bothFailed.1 = [1,2] ∧
      (∀ x ∈ bothFailed.1, Unchanged x) ∧
      Ended "orders" oneRetry 5 bothFailed.1 (.error (.retryExhausted 5 2 "refused")) := by
  have hconv : Conversation (World.machine fun _ _ => true) 0 (Others 0) {}
      (processEnvelope "orders" oneRetry ⟨5,()⟩ : Runner Unit ℕ String EnvelopeResult).run
      bothFailed.1 bothFailed.2.1 bothFailed.2.2 :=
    Conversation.start.converse (Option.some_get _).symm
  obtain ⟨hobeys,hended⟩ := failure_decisions_obeyed hconv
  obtain ⟨x,hx,hkind⟩ : ∃ x, bothFailed.1[10]? = some x ∧ kind x = .decided 2 .retry :=
    Option.map_eq_some_iff.mp (by decide +kernel)
  refine ⟨by decide +kernel,by decide +kernel,
    hobeys.givesUp ⟨x,List.mem_of_getElem? hx,?_⟩,hended _ bothFailed_ended⟩
  rw [hkind]
  exact Nat.lt_succ_self 1

end FailureDecisions
end EventCore
