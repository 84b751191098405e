import EventCore.ProjectionRules

/-! What a runner knows between two of its requests, and what each request does to it. -/
namespace EventCore
namespace RunnerLogic
open Interaction ProjectionSource TransactionalRunner ProjectionDestination ProjectionRules PagedScan

variable {P Ev Er α β : Type}
variable {selects : ProjectionSelectionId → PersistedEventEnvelope P → Bool}
  {source : RunId → DeliverySourceId} {config : RunId → PostgresProjectionConfig}

/-- A change that touches one run's session and the lock at most. -/
structure Quiet (i : RunId) (w w' : World P) : Prop where
  session : ∀ j, i ≠ j → w'.session j = w.session j
  holder : ∀ j, i ≠ j → (w'.holder = some j ↔ w.holder = some j)
  holder_self : w'.holder = some i → (w'.session i).lost = false
  log : w'.log = w.log
  skips : w'.skips = w.skips
  readModel : w'.readModel = w.readModel
  progress : w'.progress = w.progress
  reported : w'.reported = w.reported
  executed : w'.executed = w.executed

theorem Quiet.onward {i : RunId} {w w' : World P} (h : Quiet i w w') : Onward w w' :=
  .of_log_eq h.log (h.skips ▸ fun _ hx => hx) (h.readModel ▸ fun _ hx => hx)

theorem Quiet.inv {i : RunId} {w w' : World P} (h : Quiet i w w') (hinv : Inv selects w) :
    Inv selects w' := by
  refine hinv.keep h.onward (fun j hj => ?_) h.readModel h.progress h.executed
  by_cases hij : i = j
  · subst hij
    exact h.holder_self hj
  · rw [h.session j hij]
    exact hinv.holder j ((h.holder j hij).mp hj)

theorem Quiet.guar {i : RunId} {w w' : World P} (h : Quiet i w w') :
    Guar source config i w w' where
  onward := h.onward
  session := h.session
  holder := fun j hij hj => (h.holder j hij).mpr hj
  reported := fun j _ => by rw [h.reported]
  executed := ⟨[],by rw [h.executed,List.append_nil],by simp⟩
  destination := .inl ⟨h.readModel,h.progress⟩

theorem Quiet.refl {w : World P} (hholder : ∀ i, w.holder = some i → (w.session i).lost = false)
    (i : RunId) : Quiet i w w :=
  ⟨fun _ _ => rfl,fun _ _ => Iff.rfl,hholder i,rfl,rfl,rfl,rfl,rfl,rfl⟩

theorem setTransaction_quiet {w : World P} {i : RunId} (hlost : (w.session i).lost = false)
    (transaction : Option Transaction) : Quiet i w (w.setTransaction i transaction) where
  session := fun j hij => Function.update_of_ne (Ne.symm hij) _ _
  holder := fun _ _ => Iff.rfl
  holder_self := fun _ => by simp [World.setTransaction,hlost]
  log := rfl
  skips := rfl
  readModel := rfl
  progress := rfl
  reported := rfl
  executed := rfl

@[simp] theorem setTransaction_transaction (w : World P) (i : RunId)
    (transaction : Option Transaction) :
    ((w.setTransaction i transaction).session i).transaction = transaction := by
  simp [World.setTransaction]

theorem disconnect_quiet (w : World P) (i : RunId) : Quiet i w (w.disconnect i) where
  session := fun _ hij => disconnect_session_of_ne w hij
  holder := fun _ hij => disconnect_holder_of_ne w hij
  holder_self := fun h => absurd h (disconnect_holder_self w i)
  log := rfl
  skips := rfl
  readModel := rfl
  progress := rfl
  reported := rfl
  executed := rfl

theorem setHolder_quiet {w : World P} {i : RunId} {holder : Option RunId}
    (hlost : (w.session i).lost = false)
    (hholder : ∀ j, i ≠ j → (holder = some j ↔ w.holder = some j)) :
    Quiet i w { w with holder } where
  session := fun _ _ => rfl
  holder := hholder
  holder_self := fun _ => hlost
  log := rfl
  skips := rfl
  readModel := rfl
  progress := rfl
  reported := rfl
  executed := rfl

theorem execute_quiet {w w' : World P} {i : RunId} {q : DbRequest} {r : q.Reply}
    (hheld : ∀ i, w.holder = some i → (w.session i).lost = false)
    (hlost : (w.session i).lost = false) (hq : q ≠ .commit)
    (h : w.execute i q = some (r,w')) : Quiet i w w' := by
  cases q with
  | commit => exact absurd rfl hq
  | tryAdvisoryLock =>
    simp only [World.execute] at h
    cases hholder : w.holder with
    | none =>
      simp only [hholder] at h
      obtain rfl := (Prod.mk.inj (Option.some.inj h)).2
      refine setHolder_quiet hlost fun j hij => ?_
      simp [hholder,hij]
    | some j =>
      simp only [hholder] at h
      obtain rfl := (Prod.mk.inj (Option.some.inj h)).2
      exact Quiet.refl hheld i
  | advisoryUnlock =>
    obtain rfl := (Prod.mk.inj (Option.some.inj h)).2
    refine setHolder_quiet hlost fun j hij => ?_
    by_cases hi : w.holder = some i
    · simp [hi,hij]
    · simp [hi]
  | close =>
    obtain rfl := (Prod.mk.inj (Option.some.inj h)).2
    exact disconnect_quiet w i
  | begin =>
    simp only [World.execute] at h
    cases htx : (w.session i).transaction with
    | none =>
      simp only [htx] at h
      obtain rfl := (Prod.mk.inj (Option.some.inj h)).2
      exact setTransaction_quiet hlost _
    | some _ => simp [htx] at h
  | rollback =>
    obtain ⟨_,_,heq⟩ := Option.map_eq_some_iff.mp h
    obtain rfl := (Prod.mk.inj heq).2
    exact setTransaction_quiet hlost _
  | loadProgress =>
    obtain ⟨_,_,heq⟩ := Option.map_eq_some_iff.mp h
    obtain rfl := (Prod.mk.inj heq).2
    exact Quiet.refl hheld i
  | advanceProgress progress =>
    obtain ⟨_,_,heq⟩ := Option.map_eq_some_iff.mp h
    obtain rfl := (Prod.mk.inj heq).2
    exact setTransaction_quiet hlost _

/-- What a runner knows: its own effects, the mark it was told and, unless its session broke, its
transaction and the stored progress. -/
structure Known where
  transaction : Option Transaction
  progress : Option ProjectionProgress
  own : List Application
  told : Option ℕ

structure Knows (i : RunId) (k : Known) (w : World P) : Prop where
  own : own i w.readModel = k.own
  told : w.reported i = k.told
  held : (w.session i).lost = true ∨
    w.holder = some i ∧ (w.session i).transaction = k.transaction ∧ w.progress = k.progress

theorem Knows.rely {i : RunId} {k : Known} {w w' : World P} (h : Knows i k w)
    (hrely : Rely i w w') : Knows i k w' := by
  refine ⟨hrely.own_readModel.trans h.own,hrely.reported.trans h.told,?_⟩
  rcases h.held with hlost | ⟨hholder,htx,hprogress⟩
  · exact .inl (hrely.lost hlost)
  · rcases hrely.holder hholder with hlost | ⟨hholder',hprogress'⟩
    · exact .inl hlost
    · rcases hrely.session with hsame | hlost
      · exact .inr ⟨hholder',by rw [hsame,htx],hprogress'.trans hprogress⟩
      · exact .inl hlost

section Spec

variable (selects source config)

/-- The program ends in `Q` if it succeeds and in `C` if it is cut off; an error ends the run. -/
def Spec (i : RunId) (C : World P → Prop) (Q : World P → α → Prop) (w : World P)
    (p : Runner P Ev Er α) : Prop :=
  (rules selects source config).Meets i (fun w (r : Option (Except _ α)) => match r with
    | none => C w
    | some (.error _) => True
    | some (.ok a) => Q w a) w p

variable {selects source config} {i : RunId} {C : World P → Prop} {w : World P}

theorem Spec.pure {Q : World P → α → Prop} {a : α} (h : Q w a) :
    Spec selects source config i C Q w (Pure.pure a : Runner P Ev Er α) := h

theorem Spec.throw {Q : World P → α → Prop} (e : TransactionalProjectionError Er) :
    Spec selects source config i C Q w (MonadExcept.throw e : Runner P Ev Er α) := trivial

theorem Spec.cut {Q : World P → α → Prop} (h : C w) :
    Spec selects source config i C Q w (ExceptT.lift .cut : Runner P Ev Er α) := h

theorem Spec.mono {Q Q' : World P → α → Prop} {p : Runner P Ev Er α}
    (hp : Spec selects source config i C Q w p) (h : ∀ w a, Q w a → Q' w a) :
    Spec selects source config i C Q' w p := by
  refine Rules.Meets.mono (fun w r hr => ?_) hp
  match r with
  | none => exact hr
  | some (.error _) => trivial
  | some (.ok a) => exact h w a hr

theorem Spec.mono_cut {C' : World P → Prop} {Q : World P → α → Prop} {p : Runner P Ev Er α}
    (hp : Spec selects source config i C Q w p) (h : ∀ w, C w → C' w) :
    Spec selects source config i C' Q w p := by
  refine Rules.Meets.mono (fun w r hr => ?_) hp
  match r with
  | none => exact h w hr
  | some (.error _) => trivial
  | some (.ok a) => exact hr

theorem Spec.bind {Q : World P → β → Prop} {p : Runner P Ev Er α} {f : α → Runner P Ev Er β}
    (hp : Spec selects source config i C
      (fun w a => Spec selects source config i C Q w (f a)) w p) :
    Spec selects source config i C Q w (p >>= f) := by
  refine Rules.Meets.bindExcept (Rules.Meets.mono (fun w r hr => ?_) hp)
  match r with
  | none => exact hr
  | some (.error _) => trivial
  | some (.ok a) => exact hr

theorem Spec.result {Q : World P → α → Prop} {p : Runner P Ev Er α}
    (hp : Spec selects source config i C Q w p) :
    Spec selects source config i C
      (fun w (r : Except (TransactionalProjectionError Er) α) => ∀ a, r = .ok a → Q w a) w
      (TransactionalRunner.result p) := by
  refine Rules.Meets.bind (Rules.Meets.mono (fun w r hr => ?_) hp)
  match r with
  | none => exact hr
  | some (.error _) => exact fun a ha => nomatch ha
  | some (.ok a) => exact fun b hb => Except.ok.inj hb ▸ hr

theorem Spec.ask {q : Request P Ev Er} {Q : World P → Answer P Ev Er q → Prop}
    (h : ∀ w', Rely i w w' → Inv selects w' → ∀ c a w'', w'.perform selects i q c = some (a,w'') →
      Inv selects w'' ∧ Guar source config i w' w'' ∧ Q w'' a) :
    Spec selects source config i C Q w (ask q) :=
  fun w' hrely hinv c a w'' hperform => h w' hrely hinv c a w'' hperform

theorem Spec.askDb {q : DbRequest} {Q : World P → Except Unit q.Reply → Prop}
    (herror : ∀ w', Onward w w' → Q w' (.error ()))
    (h : ∀ w', Rely i w w' → Inv selects w' → (w'.session i).lost = false → ∀ r w'',
      w'.execute i q = some (r,w'') →
      Inv selects w'' ∧ Guar source config i w' w'' ∧ Q w'' (.ok r)) :
    Spec selects source config i C Q w (TransactionalRunner.ask (.db q) : Runner P Ev Er _) := by
  refine Spec.ask fun w' hrely hinv c a w'' hperform => ?_
  change w'.performDb i q c = some (a,w'') at hperform
  have hexecute : ∀ {f : q.Reply → Except Unit q.Reply},
      (if (w'.session i).lost then none else
        (w'.execute i q).map fun r => (f r.1,r.2)) = some (a,w'') →
      ∃ r, f r = a ∧ Inv selects w'' ∧ Guar source config i w' w'' ∧ Q w'' (.ok r) := by
    intro f hf
    split_ifs at hf with hlost
    obtain ⟨⟨r,u⟩,hr,heq⟩ := Option.map_eq_some_iff.mp hf
    obtain ⟨hr',rfl⟩ := Prod.mk.inj heq
    exact ⟨r,hr',h w' hrely hinv (by simpa using hlost) r u hr⟩
  cases c with
  | ok =>
    obtain ⟨r,rfl,hinv',hguar,hQ⟩ := hexecute hperform
    exact ⟨hinv',hguar,hQ⟩
  | unacknowledged =>
    obtain ⟨r,rfl,hinv',hguar,_⟩ := hexecute (f := fun _ => .error ()) hperform
    exact ⟨hinv',hguar,herror w'' (hrely.onward.trans hguar.onward)⟩
  | fail =>
    obtain ⟨rfl,rfl⟩ := Prod.mk.inj (Option.some.inj hperform)
    exact ⟨hinv,(Quiet.refl hinv.holder i).guar,herror w' hrely.onward⟩
  | decoded _ => cases hperform
  | applied _ => cases hperform
  | decided _ => cases hperform
  | page _ => cases hperform
  | cancelled _ => cases hperform

theorem Spec.db {q : DbRequest} {Q : World P → q.Reply → Prop}
    {e : TransactionalProjectionError Er}
    (h : ∀ w', Rely i w w' → Inv selects w' → (w'.session i).lost = false → ∀ r w'',
      w'.execute i q = some (r,w'') →
      Inv selects w'' ∧ Guar source config i w' w'' ∧ Q w'' r) :
    Spec selects source config i C Q w (TransactionalRunner.db e q : Runner P Ev Er _) := by
  refine Spec.bind (Spec.askDb (Q := fun w r => Spec selects source config i C Q w
    (TransactionalRunner.orThrow e r)) (fun _ _ => trivial) ?_)
  intro w' hrely hinv hlost r w'' hexecute
  obtain ⟨hinv',hguar,hQ⟩ := h w' hrely hinv hlost r w'' hexecute
  exact ⟨hinv',hguar,hQ⟩

theorem Spec.dbHeld {k : Known} {q : DbRequest} {Q : World P → q.Reply → Prop}
    {e : TransactionalProjectionError Er} (hk : Knows i k w) (hq : q ≠ .commit)
    (h : ∀ w' r w'', Knows i k w' → (w'.session i).lost = false → w'.holder = some i →
      (w'.session i).transaction = k.transaction → w'.progress = k.progress →
      w'.execute i q = some (r,w'') → Q w'' r) :
    Spec selects source config i C (fun w'' r => Onward w w'' ∧ Q w'' r) w
      (TransactionalRunner.db e q : Runner P Ev Er _) := by
  refine Spec.db fun w' hrely hinv hlost r w'' hexecute => ?_
  have hquiet := execute_quiet hinv.holder hlost hq hexecute
  have hk' := hk.rely hrely
  obtain ⟨hholder,htx,hprogress⟩ : w'.holder = some i ∧
      (w'.session i).transaction = k.transaction ∧ w'.progress = k.progress := by
    simpa [hlost] using hk'.held
  exact ⟨hquiet.inv hinv,hquiet.guar,hrely.onward.trans hquiet.onward,
    h w' r w'' hk' hlost hholder htx hprogress hexecute⟩

end Spec

end RunnerLogic
end EventCore
