import EventCore.ProjectionReset
import EventCore.RunnerLogic

/-! What competing runs and resets rely on and guarantee: the destination moves only by commits of
the lock's holder, and the commits of one call stand together in the history. -/
namespace EventCore
namespace ResetRules
open Interaction Runs ProjectionSource ProjectionReset
open TransactionalRunner hiding Request Answer ask
open ProjectionDestination hiding World Choice

variable {P Ev Er Cb M : Type}

def own (i : RunId) (w : World P M) : List (RunId × Reset M × Transaction) :=
  w.writes.filter fun write => write.1 = i

def Lost (i : RunId) (w : World P M) : Prop := (w.runner.session i).lost = true

structure SameDestination (w w' : World P M) : Prop where
  content : w'.content = w.content
  readModel : w'.runner.readModel = w.runner.readModel
  progress : w'.runner.progress = w.runner.progress
  writes : w'.writes = w.writes

/-- The commits of `i` so far are the last ones. -/
def Undisturbed (i : RunId) (w : World P M) : Prop :=
  ∃ old mine, w.writes = old ++ mine ∧ (∀ write ∈ mine, write.1 = i) ∧ ∀ write ∈ old, write.1 ≠ i

/-- Between two commits of a call there are only commits of that call. -/
def Grouped (writes : List (RunId × Reset M × Transaction)) : Prop :=
  ∀ before x between y after, writes = before ++ x :: (between ++ y :: after) → x.1 = y.1 →
    ∀ z ∈ between, z.1 = x.1

structure Inv (w : World P M) : Prop where
  holder : ∀ i, w.runner.holder = some i → ¬ Lost i w
  grouped : Grouped w.writes

structure Rely (i : RunId) (w w' : World P M) : Prop where
  session : (w'.runner.session i = w.runner.session i ∧ w'.pending i = w.pending i) ∨ Lost i w'
  holder : w.runner.holder = some i →
    Lost i w' ∨ w'.runner.holder = some i ∧ SameDestination w w'
  own : own i w' = own i w
  callbacks : w.callbacks ⊆ w'.callbacks
  loaded : w'.loaded i = w.loaded i

/-- The commit of a reset is the first commit of its call: what a successful callback left and no
progress. -/
def IsReset (i : RunId) (w : World P M) (reset : Reset M) (transaction : Transaction) : Prop :=
  own i w = [] ∧ transaction = {} ∧ ∃ content, reset = ⟨some content,true⟩ ∧
    (i,true,content) ∈ w.callbacks

def Allowed (i : RunId) (w : World P M) (reset : Reset M) (transaction : Transaction) : Job → Prop
  | .run => reset = {}
  | .reset => IsReset i w reset transaction
  | .resetAndReplay => IsReset i w reset transaction ∨ reset = {}

/-- Progress of the identity that a call is configured with, or none. -/
def Matches (source : DeliverySourceId) (selection : ProjectionSelectionId)
    (progress : Option ProjectionProgress) : Prop :=
  ∀ p ∈ progress, p.sourceId = source ∧ p.selectionId = selection

section Guarantee

variable (job : RunId → Job) (source : RunId → DeliverySourceId)
  (config : RunId → PostgresProjectionConfig)

structure Commits (i : RunId) (w w' : World P M) (reset : Reset M) (transaction : Transaction) :
    Prop where
  holder : w.runner.holder = some i
  undisturbed : Undisturbed i w
  writes : w'.writes = w.writes ++ [(i,reset,transaction)]
  content : w'.content = reset.content.getD w.content
  readModel : w'.runner.readModel =
    (if reset.content.isSome then [] else w.runner.readModel) ++ transaction.applications
  progress : w'.runner.progress =
    transaction.progress.or (if reset.deleted then none else w.runner.progress)
  allowed : Allowed i w reset transaction (job i)

/-- Reset code is called on progress of the right identity, which is still what is stored. -/
structure Calls (i : RunId) (w w' : World P M) (succeeded : Bool) (content : M) : Prop where
  callbacks : w'.callbacks = w.callbacks ++ [(i,succeeded,content)]
  loaded : Matches (source i) (config i).selection (w.loaded i)
  stored : Lost i w ∨ w.runner.progress = w.loaded i

structure Guar (i : RunId) (w w' : World P M) : Prop where
  session : ∀ j, i ≠ j → w'.runner.session j = w.runner.session j ∧ w'.pending j = w.pending j
  holder : ∀ j, i ≠ j → w.runner.holder = some j → w'.runner.holder = some j
  loaded : ∀ j, i ≠ j → w'.loaded j = w.loaded j
  callbacks : w'.callbacks = w.callbacks ∨
    ∃ succeeded content, Calls source config i w w' succeeded content
  destination : SameDestination w w' ∨ ∃ reset transaction, Commits job i w w' reset transaction

end Guarantee

theorem SameDestination.refl (w : World P M) : SameDestination w w := ⟨rfl,rfl,rfl,rfl⟩

theorem SameDestination.trans {u v w : World P M} (h : SameDestination u v)
    (h' : SameDestination v w) : SameDestination u w :=
  ⟨h'.content.trans h.content,h'.readModel.trans h.readModel,h'.progress.trans h.progress,
    h'.writes.trans h.writes⟩

section Relying

variable {i j : RunId} {u v w w' : World P M}

theorem Rely.refl (i : RunId) (w : World P M) : Rely i w w :=
  ⟨.inl ⟨rfl,rfl⟩,fun h => .inr ⟨h,.refl w⟩,rfl,fun _ h => h,rfl⟩

theorem Rely.lost (h : Rely i w w') (hlost : Lost i w) : Lost i w' := by
  rcases h.session with ⟨hsame,_⟩ | hlost'
  · exact (congrArg Session.lost hsame).trans hlost
  · exact hlost'

theorem Rely.trans (huv : Rely i u v) (hvw : Rely i v w) : Rely i u w := by
  constructor
  · rcases hvw.session with ⟨hs,hp⟩ | hlost
    · rcases huv.session with ⟨hs',hp'⟩ | hlost
      · exact .inl ⟨hs.trans hs',hp.trans hp'⟩
      · exact .inr (hvw.lost hlost)
    · exact .inr hlost
  · intro hu
    rcases huv.holder hu with hlost | ⟨hv,hsame⟩
    · exact .inl (hvw.lost hlost)
    · rcases hvw.holder hv with hlost | ⟨hw,hsame'⟩
      · exact .inl hlost
      · exact .inr ⟨hw,hsame.trans hsame'⟩
  · exact hvw.own.trans huv.own
  · exact List.Subset.trans huv.callbacks hvw.callbacks
  · exact hvw.loaded.trans huv.loaded

variable {job : RunId → Job} {source : RunId → DeliverySourceId}
  {config : RunId → PostgresProjectionConfig}

theorem Guar.rely (hij : i ≠ j) (h : Guar job source config i w w') : Rely j w w' := by
  refine ⟨.inl (h.session j hij),fun hj => .inr ⟨h.holder j hij hj,?_⟩,?_,?_,h.loaded j hij⟩
  · rcases h.destination with hsame | ⟨_,_,hcommits⟩
    · exact hsame
    · exact absurd (Option.some.inj (hcommits.holder.symm.trans hj)) hij
  · rcases h.destination with hsame | ⟨_,_,hcommits⟩
    · rw [own,own,hsame.writes]
    · rw [own,own,hcommits.writes,List.filter_append]
      simp [hij]
  · rcases h.callbacks with hsame | ⟨_,_,hcalls⟩
    · rw [hsame]
      exact List.Subset.refl _
    · rw [hcalls.callbacks]
      exact List.subset_append_left _ _

theorem undisturbed_of_own (h : own i w = []) : Undisturbed i w := by
  refine ⟨w.writes,[],(List.append_nil _).symm,by simp,fun write hwrite he => ?_⟩
  exact List.filter_eq_nil_iff.mp h write hwrite (decide_eq_true he)

theorem Undisturbed.append {reset : Reset M} {transaction : Transaction} (h : Undisturbed i w)
    (hwrites : w'.writes = w.writes ++ [(i,reset,transaction)]) : Undisturbed i w' := by
  obtain ⟨old,mine,hsplit,hmine,hold⟩ := h
  refine ⟨old,mine ++ [(i,reset,transaction)],?_,?_,hold⟩
  · rw [hwrites,hsplit,List.append_assoc]
  · simpa [or_imp,forall_and] using hmine

theorem Undisturbed.grouped {reset : Reset M} {transaction : Transaction} (h : Undisturbed i w)
    (hgrouped : Grouped w.writes) : Grouped (w.writes ++ [(i,reset,transaction)]) := by
  obtain ⟨old,mine,hsplit,hmine,hold⟩ := h
  intro before x between y after hall hxy z hz
  rcases List.eq_nil_or_concat after with rfl | ⟨after,last,rfl⟩
  · have hlast : w.writes ++ [(i,reset,transaction)] = (before ++ x :: between) ++ [y] := by
      rw [hall,List.append_assoc,List.cons_append]
    obtain ⟨hwrites,hy⟩ := List.append_inj' hlast rfl
    have hx : x.1 = i := hxy.trans (congrArg Prod.fst (List.singleton_inj.mp hy)).symm
    rw [hsplit] at hwrites
    rw [hx]
    rcases List.append_eq_append_iff.mp hwrites with ⟨c,rfl,hc⟩ | ⟨c,rfl,hc⟩
    · exact hmine z (hc ▸ List.mem_append_right _ (List.mem_cons_of_mem _ hz))
    · cases c with
      | nil => exact hmine z (by simp [← hc.trans (List.nil_append _),hz])
      | cons x' c =>
        obtain ⟨rfl,_⟩ := List.cons.inj hc
        exact absurd hx (hold _ (List.mem_append_right _ List.mem_cons_self))
  · have hlast : w.writes ++ [(i,reset,transaction)] =
        (before ++ x :: (between ++ y :: after)) ++ [last] := by
      rw [hall]
      simp
    exact hgrouped before x between y after (List.append_inj' hlast rfl).1 hxy z hz

/-- A step of a call that moves nothing but its own session, and the lock at most. -/
structure Quiet (i : RunId) (w w' : World P M) : Prop where
  session : ∀ j, i ≠ j → w'.runner.session j = w.runner.session j ∧ w'.pending j = w.pending j
  holder : ∀ j, i ≠ j → (w'.runner.holder = some j ↔ w.runner.holder = some j)
  holder_self : w'.runner.holder = some i → ¬ Lost i w'
  loaded : ∀ j, i ≠ j → w'.loaded j = w.loaded j
  callbacks : w'.callbacks = w.callbacks
  destination : SameDestination w w'

theorem Quiet.guar (h : Quiet i w w') : Guar job source config i w w' :=
  ⟨h.session,fun j hij hj => (h.holder j hij).mpr hj,h.loaded,.inl h.callbacks,.inl h.destination⟩

theorem Quiet.rely (hij : i ≠ j) (h : Quiet i w w') : Rely j w w' :=
  ⟨.inl (h.session j hij),fun hj => .inr ⟨(h.holder j hij).mpr hj,h.destination⟩,
    congrArg (List.filter _) h.destination.writes,fun _ hx => h.callbacks ▸ hx,h.loaded j hij⟩

theorem Quiet.inv (h : Quiet i w w') (hinv : Inv w) : Inv w' := by
  refine ⟨fun j hj => ?_,h.destination.writes ▸ hinv.grouped⟩
  by_cases hij : i = j
  · subst hij
    exact h.holder_self hj
  · rw [Lost,(h.session j hij).1]
    exact hinv.holder j ((h.holder j hij).mp hj)

theorem Quiet.own_eq (h : Quiet i w w') : own i w' = own i w :=
  congrArg (List.filter _) h.destination.writes

theorem Quiet.refl (hinv : Inv w) (i : RunId) : Quiet i w w :=
  ⟨fun _ _ => ⟨rfl,rfl⟩,fun _ _ => Iff.rfl,hinv.holder i,fun _ _ => rfl,rfl,.refl w⟩

theorem Quiet.of_runner {runner : ProjectionDestination.World P} {pending : RunId → Reset M}
    {loaded : RunId → Option ProjectionProgress} (h : RunnerLogic.Quiet i w.runner runner)
    (hpending : ∀ j, i ≠ j → pending j = w.pending j)
    (hloaded : ∀ j, i ≠ j → loaded j = w.loaded j) :
    Quiet i w { w with runner, pending, loaded } where
  session := fun j hij => ⟨h.session j hij,hpending j hij⟩
  holder := h.holder
  holder_self := fun hi => by simpa [Lost] using h.holder_self hi
  loaded := hloaded
  callbacks := rfl
  destination := ⟨rfl,h.readModel,h.progress,rfl⟩

theorem setPending_of_ne (w : World P M) (reset : Reset M) (hij : i ≠ j) :
    (w.setPending i reset).pending j = w.pending j := Function.update_of_ne hij.symm _ _

theorem disconnect_quiet (w : World P M) (i : RunId) : Quiet i w (w.disconnect i) :=
  .of_runner (RunnerLogic.disconnect_quiet w.runner i) (fun _ hij => setPending_of_ne w {} hij)
    fun _ _ => rfl

theorem execute_quiet {q : DbRequest} {r : q.Reply} (hinv : Inv w) (hlost : ¬ Lost i w)
    (hq : q ≠ .commit) (h : w.execute i q = some (r,w')) : Quiet i w w' := by
  have hheld : ∀ j, w.runner.holder = some j → (w.runner.session j).lost = false :=
    fun j hj => by simpa [Lost] using hinv.holder j hj
  have hlost' : (w.runner.session i).lost = false := by simpa [Lost] using hlost
  have hrunner : ∀ {runner : ProjectionDestination.World P},
      w.runner.execute i q = some (r,runner) → RunnerLogic.Quiet i w.runner runner :=
    RunnerLogic.execute_quiet hheld hlost' hq
  cases q with
  | commit => exact absurd rfl hq
  | begin | rollback =>
    obtain ⟨⟨_,runner⟩,hexecute,heq⟩ := Option.map_eq_some_iff.mp h
    obtain ⟨rfl,rfl⟩ := Prod.mk.inj heq
    exact .of_runner (hrunner hexecute) (fun _ hij => setPending_of_ne w {} hij) fun _ _ => rfl
  | close =>
    obtain ⟨_,rfl⟩ := Prod.mk.inj (Option.some.inj h)
    exact disconnect_quiet w i
  | loadProgress =>
    obtain ⟨_,_,heq⟩ := Option.map_eq_some_iff.mp h
    obtain ⟨_,rfl⟩ := Prod.mk.inj heq
    exact .of_runner (.refl hheld i) (fun _ _ => rfl) fun _ hij => Function.update_of_ne hij.symm _ _
  | advisoryUnlock =>
    obtain ⟨_,rfl⟩ := Prod.mk.inj (Option.some.inj h)
    exact .of_runner (hrunner rfl) (fun _ _ => rfl) fun _ _ => rfl
  | tryAdvisoryLock | advanceProgress =>
    obtain ⟨⟨_,runner⟩,hexecute,heq⟩ := Option.map_eq_some_iff.mp h
    obtain ⟨rfl,rfl⟩ := Prod.mk.inj heq
    exact .of_runner (hrunner hexecute) (fun _ _ => rfl) fun _ _ => rfl

/-- A step within the leadership of a call, other than a commit. -/
structure Works (i : RunId) (w w' : World P M) : Prop where
  quiet : Quiet i w w'
  holder : w'.runner.holder = w.runner.holder
  lost : Lost i w' ↔ Lost i w
  pending : w'.pending i = w.pending i ∨ w'.pending i = {}

theorem Works.refl (hinv : Inv w) (i : RunId) : Works i w w := ⟨.refl hinv i,rfl,Iff.rfl,.inl rfl⟩

theorem setTransaction_lost (w : ProjectionDestination.World P) (i : RunId)
    (transaction : Option Transaction) :
    ((w.setTransaction i transaction).session i).lost = (w.session i).lost := by
  simp [ProjectionDestination.World.setTransaction]

/-- The requests over the connection that neither lock, unlock, close nor commit. -/
def Inner : DbRequest → Prop
  | .begin | .rollback | .loadProgress | .advanceProgress _ => True
  | _ => False

theorem execute_works {q : DbRequest} {r : q.Reply} (hinv : Inv w) (hlost : ¬ Lost i w)
    (hq : Inner q) (h : w.execute i q = some (r,w')) : Works i w w' := by
  have hquiet : Quiet i w w' := execute_quiet hinv hlost (by rintro rfl; exact hq) h
  cases q with
  | tryAdvisoryLock | advisoryUnlock | close | commit => exact hq.elim
  | «begin» =>
    obtain ⟨⟨_,runner⟩,hexecute,heq⟩ := Option.map_eq_some_iff.mp h
    obtain ⟨rfl,rfl⟩ := Prod.mk.inj heq
    simp only [ProjectionDestination.World.execute] at hexecute
    split at hexecute
    · obtain ⟨_,rfl⟩ := Prod.mk.inj (Option.some.inj hexecute)
      exact ⟨hquiet,rfl,by simp [Lost,setTransaction_lost],.inr (Function.update_self _ _ _)⟩
    · cases hexecute
  | rollback =>
    obtain ⟨⟨_,runner⟩,hexecute,heq⟩ := Option.map_eq_some_iff.mp h
    obtain ⟨rfl,rfl⟩ := Prod.mk.inj heq
    obtain ⟨_,_,heq⟩ := Option.map_eq_some_iff.mp hexecute
    obtain ⟨_,rfl⟩ := Prod.mk.inj heq
    exact ⟨hquiet,rfl,by simp [Lost,setTransaction_lost],.inr (Function.update_self _ _ _)⟩
  | loadProgress =>
    obtain ⟨_,_,heq⟩ := Option.map_eq_some_iff.mp h
    obtain ⟨_,rfl⟩ := Prod.mk.inj heq
    exact ⟨hquiet,rfl,Iff.rfl,.inl rfl⟩
  | advanceProgress progress =>
    obtain ⟨⟨_,runner⟩,hexecute,heq⟩ := Option.map_eq_some_iff.mp h
    obtain ⟨rfl,rfl⟩ := Prod.mk.inj heq
    obtain ⟨_,_,heq⟩ := Option.map_eq_some_iff.mp hexecute
    obtain ⟨_,rfl⟩ := Prod.mk.inj heq
    exact ⟨hquiet,rfl,by simp [Lost,setTransaction_lost],.inl rfl⟩

theorem works_of_runner {runner : ProjectionDestination.World P} (hinv : Inv w)
    (hsession : runner.session = w.runner.session ∨
      ∃ transaction, runner.session = (w.runner.setTransaction i transaction).session)
    (hholder : runner.holder = w.runner.holder) (hreadModel : runner.readModel = w.runner.readModel)
    (hprogress : runner.progress = w.runner.progress) : Works i w { w with runner } := by
  have hother : ∀ j, i ≠ j → runner.session j = w.runner.session j := by
    intro j hij
    rcases hsession with h | ⟨transaction,h⟩
    · rw [h]
    · rw [h]
      exact Function.update_of_ne hij.symm _ _
  have hlost : Lost i ({ w with runner } : World P M) ↔ Lost i w := by
    rcases hsession with h | ⟨transaction,h⟩
    · simp [Lost,h]
    · simp [Lost,h,setTransaction_lost]
  refine ⟨⟨fun j hij => ⟨hother j hij,rfl⟩,fun j _ => by rw [hholder],fun hi => ?_,
    fun _ _ => rfl,rfl,⟨rfl,hreadModel,hprogress,rfl⟩⟩,hholder,hlost,.inl rfl⟩
  rw [hlost]
  exact hinv.holder i (hholder ▸ hi)

theorem perform_works {selects : ProjectionSelectionId → PersistedEventEnvelope P → Bool}
    {q : TransactionalRunner.Request P Ev Er} {c : ProjectionDestination.Choice Ev Er}
    {a : TransactionalRunner.Answer P Ev Er q} {runner : ProjectionDestination.World P}
    (hinv : Inv w) (hq : ∀ d, q ≠ .db d) (h : w.runner.perform selects i q c = some (a,runner)) :
    Works i w { w with runner } := by
  have hwrite : ∀ application : Application,
      ((w.runner.write i application).session = w.runner.session ∨ ∃ transaction,
        (w.runner.write i application).session =
          (w.runner.setTransaction i transaction).session) ∧
      (w.runner.write i application).holder = w.runner.holder ∧
      (w.runner.write i application).readModel = w.runner.readModel ∧
      (w.runner.write i application).progress = w.runner.progress := by
    intro application
    unfold ProjectionDestination.World.write
    split
    · exact ⟨.inl rfl,rfl,rfl,rfl⟩
    · exact ⟨.inr ⟨_,rfl⟩,rfl,rfl,rfl⟩
  cases q with
  | db d => exact absurd rfl (hq d)
  | apply event position =>
    cases c with
    | applied outcome =>
      obtain ⟨_,rfl⟩ := Prod.mk.inj (Option.some.inj h)
      obtain ⟨hsession,hholder,hreadModel,hprogress⟩ :=
        hwrite ⟨i,w.runner.applications,position,outcome.isOk⟩
      exact works_of_runner hinv hsession hholder hreadModel hprogress
    | _ => cases h
  | readEnvelopes source selection after through limit =>
    cases c with
    | page size =>
      obtain ⟨_,_,heq⟩ := Option.map_eq_some_iff.mp h
      obtain ⟨_,rfl⟩ := Prod.mk.inj heq
      exact .refl hinv i
    | fail =>
      obtain ⟨_,rfl⟩ := Prod.mk.inj (Option.some.inj h)
      exact .refl hinv i
    | _ => cases h
  | onError position error attempt =>
    cases c with
    | decided decision =>
      obtain ⟨_,rfl⟩ := Prod.mk.inj (Option.some.inj h)
      split_ifs
      · exact works_of_runner hinv (.inl rfl) rfl rfl rfl
      · exact .refl hinv i
    | _ => cases h
  | _ =>
    cases c <;> first
      | cases h; done
      | obtain ⟨_,rfl⟩ := Prod.mk.inj (Option.some.inj h)
        exact works_of_runner hinv (.inl rfl) rfl rfl rfl

theorem deleteProgress_quiet (hinv : Inv w) (h : w.deleteProgress i = some w') :
    Quiet i w w' ∧ w' = w.setPending i { w.pending i with deleted := true } := by
  unfold World.deleteProgress at h
  split_ifs at h
  obtain ⟨_,_,rfl⟩ := Option.map_eq_some_iff.mp h
  refine ⟨.of_runner (.refl (fun j hj => ?_) i) (fun _ hij => setPending_of_ne w _ hij)
    fun _ _ => rfl,rfl⟩
  simpa [Lost] using hinv.holder j hj

theorem commit_sound {transaction : Transaction} (hinv : Inv w)
    (hholder : w.runner.holder = some i) (hundisturbed : Undisturbed i w)
    (hallowed : Allowed i w (w.pending i) transaction (job i)) :
    Inv (w.commit i transaction) ∧ Guar job source config i w (w.commit i transaction) := by
  have hcommits : Commits job i w (w.commit i transaction) (w.pending i) transaction :=
    ⟨hholder,hundisturbed,rfl,rfl,rfl,rfl,hallowed⟩
  have hsession : ∀ j, i ≠ j →
      (w.commit i transaction).runner.session j = w.runner.session j :=
    fun j hij => Function.update_of_ne hij.symm _ _
  refine ⟨⟨fun j hj => ?_,hundisturbed.grouped hinv.grouped⟩,
    fun j hij => ⟨hsession j hij,setPending_of_ne w {} hij⟩,fun _ _ hj => hj,fun _ _ => rfl,
    .inl rfl,.inr ⟨_,_,hcommits⟩⟩
  have hlost : Lost j (w.commit i transaction) ↔ Lost j w := by
    by_cases hij : i = j
    · subst hij
      exact (congrArg (· = true) (setTransaction_lost w.runner i none)).to_iff
    · rw [Lost,hsession j hij,Lost]
  rw [hlost]
  exact hinv.holder j hj

theorem callback_eq (w : World P M) (i : RunId) (succeeded : Bool) (content : M) :
    w.callback i succeeded content =
      { w with
        callbacks := w.callbacks ++ [(i,succeeded,content)]
        pending := Function.update w.pending i (if (w.runner.session i).transaction.isSome then
          { w.pending i with content := some content } else w.pending i) } := by
  simp only [World.callback]
  cases (w.runner.session i).transaction with
  | none => simp
  | some _ => rfl

theorem callback_sound (hinv : Inv w)
    (hloaded : Matches (source i) (config i).selection (w.loaded i))
    (hstored : Lost i w ∨ w.runner.progress = w.loaded i) (succeeded : Bool) (content : M) :
    Inv (w.callback i succeeded content) ∧
      Guar job source config i w (w.callback i succeeded content) := by
  rw [callback_eq]
  exact ⟨⟨hinv.holder,hinv.grouped⟩,fun j hij => ⟨rfl,Function.update_of_ne hij.symm _ _⟩,
    fun _ _ hj => hj,fun _ _ => rfl,.inr ⟨succeeded,content,rfl,hloaded,hstored⟩,
    .inl ⟨rfl,rfl,rfl,rfl⟩⟩

theorem happen_sound {b : Happening P} (hinv : Inv w) (hb : w.happen b = some w') :
    Inv w' ∧ SameDestination w w' ∧ w'.callbacks = w.callbacks ∧ ∀ i, Rely i w w' := by
  cases b with
  | deliver source envelope =>
    obtain ⟨runner,hrunner,rfl⟩ := Option.map_eq_some_iff.mp hb
    obtain ⟨log,_,rfl⟩ := Option.map_eq_some_iff.mp hrunner
    exact ⟨⟨hinv.holder,hinv.grouped⟩,⟨rfl,rfl,rfl,rfl⟩,rfl,
      fun i => ⟨.inl ⟨rfl,rfl⟩,fun hi => .inr ⟨hi,rfl,rfl,rfl,rfl⟩,rfl,fun _ h => h,rfl⟩⟩
  | disconnect j =>
    obtain rfl := Option.some.inj hb
    have hquiet := disconnect_quiet w j
    have hlost : Lost j (w.disconnect j) := by
      simp [Lost,ProjectionReset.World.disconnect,ProjectionDestination.World.disconnect]
    refine ⟨hquiet.inv hinv,hquiet.destination,rfl,fun i => ?_⟩
    by_cases hji : j = i
    · subst hji
      exact ⟨.inr hlost,fun _ => .inl hlost,rfl,fun _ h => h,rfl⟩
    · exact hquiet.rely hji

end Relying

section Rules

variable (selects : ProjectionSelectionId → PersistedEventEnvelope P → Bool)
  (job : RunId → Job) (source : RunId → DeliverySourceId)
  (config : RunId → PostgresProjectionConfig)

/-- A call that has not begun has committed nothing and has no open transaction. -/
structure Fresh (i : RunId) (w : World P M) : Prop where
  own : own i w = []
  session : Lost i w ∨ (w.runner.session i).transaction = none ∧ w.pending i = {}

theorem Fresh.rely {i : RunId} {w w' : World P M} (h : Fresh i w) (hrely : Rely i w w') :
    Fresh i w' := by
  refine ⟨hrely.own.trans h.own,?_⟩
  rcases h.session with hlost | ⟨hnone,hpending⟩
  · exact .inl (hrely.lost hlost)
  · rcases hrely.session with ⟨hsession,hsame⟩ | hlost
    · exact .inr ⟨by rw [hsession,hnone],hsame.trans hpending⟩
    · exact .inl hlost

def rules : Rules (World.machine selects : Machine RunId (Request P Ev Er) (Answer P Ev Er Cb)
    (World P M) (Choice Ev Er Cb M) (Happening P)) where
  inv := Inv
  rely := Rely
  guar := Guar job source config
  fresh := Fresh
  rely_refl := .refl
  rely_trans := .trans
  guar_rely := fun hij _ h => h.rely hij
  fresh_rely := Fresh.rely
  background_inv := fun hinv hb => (happen_sound hinv hb).1
  background_rely := fun hinv hb => (happen_sound hinv hb).2.2.2 _

end Rules

end ResetRules
end EventCore
