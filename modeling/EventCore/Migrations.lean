import EventCore.Interaction
import EventCore.Types

/-! The component migrations of the projections: each is one transaction under one advisory lock,
which looks into the table of the versions, runs the SQL and records the version. -/
namespace EventCore
namespace Migrations
open Interaction Runs

abbrev CallId := ℕ

/-- The primary key of `eventcore_projection_schema_versions`. -/
abbrev Key := String × ℤ

/-- What a call of `run_component_migration` is given besides the pool. -/
structure Call where
  component : String
  version : ℤ
  migrationSql : String

def Call.key (call : Call) : Key := (call.component,call.version)

/-- `failed` is whatever comes from outside: the connection, a timeout, SQL that is rejected. -/
inductive Error
  | failed
  | duplicateTable
  | missingTable
  | duplicateKey
  deriving DecidableEq

inductive Request
  | begin
  | advisoryXactLock
  | createTable
  | selectExists (key : Key)
  | rawSql (migrationSql : String)
  | insert (key : Key)
  | commit
  deriving DecidableEq

def Request.Reply : Request → Type
  | .selectExists _ => Bool
  | _ => Unit

abbrev Answer (q : Request) : Type := Except Error q.Reply

abbrev Migration (α : Type) : Type := ExceptT Error (Program Request Answer) α

def ask (q : Request) : Migration q.Reply := ExceptT.mk (Program.request q)

def runComponentMigration (call : Call) : Migration Unit := do
  ask .begin
  ask .advisoryXactLock
  ask .createTable
  let alreadyApplied : Bool ← ask (.selectExists call.key)
  if !alreadyApplied then
    ask (.rawSql call.migrationSql)
    ask (.insert call.key)
  ask .commit

structure Transaction where
  created : Bool := false
  executed : List String := []
  inserted : List Key := []
  deriving DecidableEq

/-- The committed table of the versions and the committed SQL, the open transactions, and the
holder of the lock. -/
structure World where
  table : Bool := false
  versions : List Key := []
  executed : List String := []
  transactions : HashMap CallId Transaction := ∅
  holder : Option CallId := none

/-- How a request goes: it is served, it fails, or it is served and the answer gets lost. -/
inductive Choice
  | serve
  | fail
  | lose
  deriving DecidableEq

namespace World

def update (w : World) (i : CallId) (t : Transaction) : World :=
  { w with transactions := AList.insert i t w.transactions }

def finish (w : World) (i : CallId) : World :=
  { w with
    transactions := AList.erase i w.transactions
    holder := if w.holder = some i then none else w.holder }

/-- Another open transaction has done what this one is about to do. -/
def contended (w : World) (i : CallId) (does : Transaction → Bool) : Bool :=
  w.transactions.entries.any fun p => p.1 ≠ i && does p.2

/-- A statement sees what is committed by then and what its own transaction has done. Where it
would wait for another transaction and then collide with it, it fails at once. -/
def execute (w : World) (i : CallId) (t : Transaction) :
    (q : Request) → Option (Answer q × World)
  | .begin => none
  | .advisoryXactLock =>
    if w.holder = none ∨ w.holder = some i then some (.ok (),{ w with holder := some i })
    else none
  | .createTable =>
    if w.table || t.created then some (.ok (),w)
    else if w.contended i (·.created) then some (.error .duplicateTable,w)
    else some (.ok (),w.update i { t with created := true })
  | .selectExists key =>
    if w.table || t.created then some (.ok (decide (key ∈ w.versions ++ t.inserted)),w)
    else some (.error .missingTable,w)
  | .rawSql migrationSql =>
    some (.ok (),w.update i { t with executed := t.executed ++ [migrationSql] })
  | .insert key =>
    if !(w.table || t.created) then some (.error .missingTable,w)
    else if key ∈ w.versions ++ t.inserted ∨ w.contended i (fun u => decide (key ∈ u.inserted)) then
      some (.error .duplicateKey,w)
    else some (.ok (),w.update i { t with inserted := t.inserted ++ [key] })
  | .commit => some (.ok (),
      { w.finish i with
        table := w.table || t.created
        versions := w.versions ++ t.inserted
        executed := w.executed ++ t.executed })

/-- A request that is served; outside a transaction only `begin` is. -/
def serve (w : World) (i : CallId) : (q : Request) → Option (Answer q × World)
  | .begin =>
    match w.transactions.get? i with
    | none => some (.ok (),w.update i {})
    | some _ => none
  | q => (w.transactions.get? i).bind fun t => w.execute i t q

def perform (w : World) (i : CallId) (q : Request) : Choice → Option (Answer q × World)
  | .serve => w.serve i q
  | .fail => some (.error .failed,w)
  | .lose => (w.serve i q).map fun r => (.error .failed,r.2)

/-- A transaction that is dropped, or whose connection is lost, is rolled back at some time. -/
def rollback (w : World) (i : CallId) : Option World :=
  (w.transactions.get? i).map fun _ => w.finish i

def machine : Machine CallId Request Answer World Choice CallId where
  perform := perform
  background := rollback

end World

/-- Calls that run at any time next to each other on a database where `old` has been applied. -/
def system (calls : CallId → Call) (old : List Key) :
    System (State CallId Request Answer World (Except Error Unit)) (Label CallId Choice CallId) :=
  World.machine.system (fun i _ => runComponentMigration (calls i)) fun w =>
    w = { table := w.table, versions := old } ∧ old.Nodup ∧ (old ≠ [] → w.table = true)

section Rules

variable {calls : CallId → Call} {old : List Key} {i j : CallId} {w w' w'' : World}
  {t : Transaction}

/-- The SQL of a call was run for each of the new versions, in their order. -/
def Applied (calls : CallId → Call) (old : List Key) (versions : List Key)
    (executed : List String) : Prop :=
  ∃ new, versions = old ++ new ∧
    List.Forall₂ (fun key sql => ∃ i, (calls i).key = key ∧ (calls i).migrationSql = sql) new executed

structure Inv (calls : CallId → Call) (old : List Key) (w : World) : Prop where
  nodup : w.versions.Nodup
  table : w.versions ≠ [] → w.table = true
  applied : Applied calls old w.versions w.executed
  idle : ∀ i t, w.transactions.get? i = some t → w.holder ≠ some i → t = {}

/-- What others leave alone: an open transaction, its lock, and under the lock the versions. -/
structure Rely (i : CallId) (w w' : World) : Prop where
  transaction : w'.transactions.get? i = none ∨ w'.transactions.get? i = w.transactions.get? i
  holder : ∀ t, w'.transactions.get? i = some t → w.holder = some i →
    w'.holder = some i ∧ w'.versions = w.versions ∧ w'.table = w.table
  versions : w.versions ⊆ w'.versions

structure Guar (i : CallId) (w w' : World) : Prop where
  transactions : ∀ j, j ≠ i → w'.transactions.get? j = w.transactions.get? j
  holder : ∀ j, j ≠ i → w.holder = some j →
    w'.holder = some j ∧ w'.versions = w.versions ∧ w'.table = w.table
  versions : w.versions ⊆ w'.versions

theorem Rely.refl (w : World) : Rely i w w :=
  ⟨.inr rfl,fun _ _ h => ⟨h,rfl,rfl⟩,List.Subset.refl _⟩

theorem Rely.open_before (h : Rely i w w') (ht : w'.transactions.get? i = some t) :
    w.transactions.get? i = some t := by
  rcases h.transaction with hnone | hsame
  · rw [hnone] at ht
    cases ht
  · rw [← hsame,ht]

theorem Rely.trans (h : Rely i w w') (h' : Rely i w' w'') : Rely i w w'' := by
  refine ⟨?_,fun t ht hheld => ?_,List.Subset.trans h.versions h'.versions⟩
  · rcases h'.transaction with hnone | hsame
    · exact .inl hnone
    · rw [hsame]
      exact h.transaction
  · obtain ⟨hheld',hversions,htable⟩ := h.holder t (h'.open_before ht) hheld
    obtain ⟨hheld'',hversions',htable'⟩ := h'.holder t ht hheld'
    exact ⟨hheld'',hversions'.trans hversions,htable'.trans htable⟩

theorem Guar.rely (hij : i ≠ j) (h : Guar i w w') : Rely j w w' :=
  ⟨.inr (h.transactions j (Ne.symm hij)),fun _ _ => h.holder j (Ne.symm hij),h.versions⟩

theorem get?_update_self : (w.update i t).transactions.get? i = some t :=
  HashMap.get?_insert_self ..

theorem get?_update_ne (hji : j ≠ i) :
    (w.update i t).transactions.get? j = w.transactions.get? j :=
  HashMap.get?_insert_ne _ _ hji

theorem get?_finish_self : (w.finish i).transactions.get? i = none := AList.lookup_erase _ _

theorem get?_finish_ne (hji : j ≠ i) :
    (w.finish i).transactions.get? j = w.transactions.get? j := AList.lookup_erase_ne hji

theorem holder_finish_ne (hji : j ≠ i) : (w.finish i).holder = some j ↔ w.holder = some j := by
  unfold World.finish
  split_ifs with hheld
  · simp [hheld,Ne.symm hji]
  · rfl

theorem Guar.refl (w : World) : Guar i w w :=
  ⟨fun _ _ => rfl,fun _ _ h => ⟨h,rfl,rfl⟩,List.Subset.refl _⟩

theorem Guar.update (w : World) (t : Transaction) : Guar i w (w.update i t) :=
  ⟨fun _ => get?_update_ne,fun _ _ h => ⟨h,rfl,rfl⟩,List.Subset.refl _⟩

theorem Guar.finish {w' : World} (htransactions : w'.transactions = (w.finish i).transactions)
    (hholder : w'.holder = (w.finish i).holder)
    (hsame : w.holder = some i ∨ w'.versions = w.versions ∧ w'.table = w.table)
    (hversions : w.versions ⊆ w'.versions) : Guar i w w' := by
  refine ⟨fun j hji => ?_,fun j hji hheld => ?_,hversions⟩
  · rw [htransactions]
    exact get?_finish_ne hji
  · rw [hholder,holder_finish_ne hji]
    rcases hsame with hown | hsame
    · exact absurd (Option.some.inj (hheld.symm.trans hown)) hji
    · exact ⟨hheld,hsame⟩

theorem Inv.update (h : Inv calls old w) (ht : w.holder = some i ∨ t = {}) :
    Inv calls old (w.update i t) := by
  refine ⟨h.nodup,h.table,h.applied,fun j u hu hheld => ?_⟩
  by_cases hji : j = i
  · subst hji
    rw [get?_update_self] at hu
    obtain rfl := Option.some.inj hu
    exact ht.resolve_left hheld
  · rw [get?_update_ne hji] at hu
    exact h.idle j u hu hheld

theorem Inv.finish (h : Inv calls old w) (i : CallId) : Inv calls old (w.finish i) := by
  refine ⟨h.nodup,h.table,h.applied,fun j u hu hheld => ?_⟩
  have hji : j ≠ i := by
    rintro rfl
    rw [get?_finish_self] at hu
    cases hu
  rw [get?_finish_ne hji] at hu
  rw [Ne,holder_finish_ne hji] at hheld
  exact h.idle j u hu hheld

theorem Inv.uncontended (h : Inv calls old w) (hheld : w.holder = some i)
    {does : Transaction → Bool} (hdoes : does {} = false) : w.contended i does = false := by
  refine Bool.eq_false_iff.mpr fun hany => ?_
  obtain ⟨p,hp,hother⟩ := List.any_eq_true.mp hany
  have hji : p.1 ≠ i := by
    rintro heq
    simp [heq] at hother
  have hidle := h.idle p.1 p.2 (HashMap.mem_entries_iff.mp hp)
    (fun heq => hji (Option.some.inj (heq.symm.trans hheld)))
  simp [hidle,hdoes] at hother

theorem rollback_rely (h : World.rollback w i = some w') : Rely j w w' := by
  obtain ⟨_,_,rfl⟩ := Option.map_eq_some_iff.mp h
  by_cases hji : j = i
  · subst hji
    refine ⟨.inl get?_finish_self,fun t ht => ?_,List.Subset.refl _⟩
    rw [get?_finish_self] at ht
    cases ht
  · exact (Guar.finish rfl rfl (.inr ⟨rfl,rfl⟩) (List.Subset.refl _)).rely (Ne.symm hji)

def rules (calls : CallId → Call) (old : List Key) : Rules World.machine where
  inv := Inv calls old
  rely := Rely
  guar := Guar
  fresh i w := w.transactions.get? i = none
  rely_refl _ w := Rely.refl w
  rely_trans := Rely.trans
  guar_rely hij _ h := h.rely hij
  fresh_rely := by
    intro i w w' hfresh hrely
    rcases hrely.transaction with hnone | hsame
    · exact hnone
    · exact hsame.trans hfresh
  background_inv := by
    intro w w' b hinv h
    obtain ⟨_,_,rfl⟩ := Option.map_eq_some_iff.mp h
    exact hinv.finish b
  background_rely _ h := rollback_rely h

end Rules

section Spec

variable {calls : CallId → Call} {old : List Key} {α β : Type} {i : CallId} {w : World}

/-- A part of a migration ends in `Q`, or in an error from outside. -/
def Ended (Q : World → α → Prop) (w : World) : Option (Except Error α) → Prop
  | none => False
  | some (.error e) => e = .failed
  | some (.ok a) => Q w a

def Spec (calls : CallId → Call) (old : List Key) (i : CallId) (Q : World → α → Prop) (w : World)
    (p : Migration α) : Prop := (rules calls old).Meets i (Ended Q) w p

theorem Spec.bind {Q : World → α → Prop} {R : World → β → Prop} {p : Migration α}
    {f : α → Migration β} (hp : Spec calls old i Q w p)
    (hf : ∀ w a, Q w a → Spec calls old i R w (f a)) : Spec calls old i R w (p >>= f) := by
  refine Rules.Meets.bindExcept (Rules.Meets.mono (fun w r hr => ?_) hp)
  rcases r with _ | _ | a
  · cases hr
  · exact hr
  · exact hf w a hr

theorem Spec.request {q : Request} {Q : World → q.Reply → Prop}
    (h : ∀ w', Rely i w w' → Inv calls old w' → ∀ a w'', w'.serve i q = some (a,w'') →
      Inv calls old w'' ∧ Guar i w' w'' ∧ ∃ r, a = .ok r ∧ Q w'' r) :
    Spec calls old i Q w (ask q) := by
  intro w' hrely hinv c a w'' hperform
  change w'.perform i q c = some (a,w'') at hperform
  cases c with
  | fail =>
    obtain ⟨rfl,rfl⟩ := Prod.mk.inj (Option.some.inj hperform)
    exact ⟨hinv,Guar.refl w',rfl⟩
  | serve =>
    obtain ⟨hinv',hguar,r,rfl,hr⟩ := h w' hrely hinv a w'' hperform
    exact ⟨hinv',hguar,hr⟩
  | lose =>
    obtain ⟨⟨a',u⟩,hserve,heq⟩ := Option.map_eq_some_iff.mp hperform
    obtain ⟨rfl,rfl⟩ := Prod.mk.inj heq
    obtain ⟨hinv',hguar,_⟩ := h w' hrely hinv a' u hserve
    exact ⟨hinv',hguar,rfl⟩

/-- How far a migration has come that has the lock: what its transaction has done, and what it
knows of the table. The transaction may have been rolled back meanwhile. -/
def At (i : CallId) (t : Transaction) (P : Bool → List Key → Prop) (w : World) : Prop :=
  ∀ u, w.transactions.get? i = some u → u = t ∧ w.holder = some i ∧ P w.table w.versions

theorem At.rely {t : Transaction} {P : Bool → List Key → Prop} {w' : World} (h : At i t P w)
    (hrely : Rely i w w') : At i t P w' := by
  intro u hu
  obtain ⟨rfl,hheld,hP⟩ := h u (hrely.open_before hu)
  obtain ⟨hheld',hversions,htable⟩ := hrely.holder u hu hheld
  rw [hversions,htable]
  exact ⟨rfl,hheld',hP⟩

theorem Spec.statement {q : Request} {Q : World → q.Reply → Prop} (hbegin : q ≠ .begin)
    {t : Transaction} {P : Bool → List Key → Prop} (hat : At i t P w)
    (h : ∀ w', Inv calls old w' → w'.transactions.get? i = some t → w'.holder = some i →
      P w'.table w'.versions → ∃ r w'', w'.execute i t q = some (.ok r,w'') ∧
        Inv calls old w'' ∧ Guar i w' w'' ∧ Q w'' r) :
    Spec calls old i Q w (ask q) := by
  refine Spec.request fun w' hrely hinv a w'' hserve => ?_
  have hstatement : w'.serve i q = (w'.transactions.get? i).bind fun t => w'.execute i t q := by
    cases q with
    | «begin» => exact absurd rfl hbegin
    | _ => rfl
  rw [hstatement] at hserve
  obtain ⟨u,hu,hexecute⟩ := Option.bind_eq_some_iff.mp hserve
  obtain ⟨rfl,hheld,hP⟩ := hat.rely hrely u hu
  obtain ⟨r,v,hexecute',hinv',hguar,hr⟩ := h w' hinv hu hheld hP
  obtain ⟨rfl,rfl⟩ := Prod.mk.inj (Option.some.inj (hexecute.symm.trans hexecute'))
  exact ⟨hinv',hguar,r,rfl,hr⟩

theorem at_update {t : Transaction} {P : Bool → List Key → Prop} (hheld : w.holder = some i)
    (hP : P w.table w.versions) : At i t P (w.update i t) := by
  intro u hu
  rw [get?_update_self] at hu
  exact ⟨(Option.some.inj hu).symm,hheld,hP⟩

theorem at_of_get? {t : Transaction} {P : Bool → List Key → Prop}
    (ht : w.transactions.get? i = some t) (hheld : w.holder = some i)
    (hP : P w.table w.versions) : At i t P w := by
  intro u hu
  exact ⟨Option.some.inj (hu.symm.trans ht),hheld,hP⟩

section Requests

theorem spec_begin (hfresh : w.transactions.get? i = none) :
    Spec calls old i (fun w _ => ∀ u, w.transactions.get? i = some u → u = {}) w (ask .begin) := by
  refine Spec.request fun w' hrely hinv a w'' hserve => ?_
  have hnone : w'.transactions.get? i = none := by
    rcases hrely.transaction with hnone | hsame
    · exact hnone
    · exact hsame.trans hfresh
  simp only [World.serve,hnone,Option.some.injEq,Prod.mk.injEq] at hserve
  obtain ⟨rfl,rfl⟩ := hserve
  refine ⟨hinv.update (.inr rfl),Guar.update w' {},(),rfl,fun u hu => ?_⟩
  rw [get?_update_self] at hu
  exact (Option.some.inj hu).symm

theorem spec_lock (hat : ∀ u, w.transactions.get? i = some u → u = {}) :
    Spec calls old i (fun w _ => At i {} (fun _ _ => True) w) w (ask .advisoryXactLock) := by
  refine Spec.request fun w' hrely hinv a w'' hserve => ?_
  obtain ⟨t,ht,hexecute⟩ := Option.bind_eq_some_iff.mp hserve
  obtain rfl := hat t (hrely.open_before ht)
  simp only [World.execute] at hexecute
  split_ifs at hexecute with hfree
  obtain ⟨rfl,rfl⟩ := Prod.mk.inj (Option.some.inj hexecute)
  refine ⟨⟨hinv.nodup,hinv.table,hinv.applied,fun j u hu hheld => ?_⟩,
    ⟨fun _ _ => rfl,fun j hji hheld => ?_,List.Subset.refl _⟩,(),rfl,at_of_get? ht rfl trivial⟩
  · refine hinv.idle j u hu fun hj => hheld ?_
    rcases hfree with hnone | hown
    · rw [hnone] at hj
      cases hj
    · exact hown.symm.trans hj
  · rcases hfree with hnone | hown
    · rw [hnone] at hheld
      cases hheld
    · exact absurd (Option.some.inj (hheld.symm.trans hown)) hji

/-- There is a table from now on, if only for this transaction. -/
def Found (c : Bool) (known : List Key → Prop) (table : Bool) (versions : List Key) : Prop :=
  (table || c) = true ∧ known versions

theorem spec_createTable (hat : At i {} (fun _ _ => True) w) :
    Spec calls old i (fun w _ => ∃ c, At i { created := c } (Found c fun _ => True) w) w
      (ask .createTable) := by
  refine Spec.statement (by simp) hat fun w' hinv ht hheld _ => ?_
  cases htable : w'.table with
  | true =>
    refine ⟨(),w',by simp [World.execute,htable],hinv,Guar.refl w',false,
      at_of_get? ht hheld ⟨by simp [htable],trivial⟩⟩
  | false =>
    have hfree : w'.contended i (·.created) = false := hinv.uncontended hheld rfl
    refine ⟨(),w'.update i { created := true },by simp [World.execute,htable,hfree],
      hinv.update (.inl hheld),Guar.update w' _,true,at_update hheld ⟨by simp,trivial⟩⟩

theorem spec_selectExists {c : Bool} (hat : At i { created := c } (Found c fun _ => True) w)
    (key : Key) :
    Spec calls old i (fun w (r : Bool) =>
      At i { created := c } (Found c fun versions => r = decide (key ∈ versions)) w) w
      (ask (.selectExists key)) := by
  refine Spec.statement (by simp) hat fun w' hinv ht hheld hfound => ?_
  refine ⟨decide (key ∈ w'.versions),w',?_,hinv,Guar.refl w',
    at_of_get? ht hheld ⟨hfound.1,rfl⟩⟩
  simp only [World.execute,hfound.1,List.append_nil,if_true]

theorem spec_rawSql {c : Bool} {key : Key}
    (hat : At i { created := c } (Found c fun versions => key ∉ versions) w)
    (migrationSql : String) :
    Spec calls old i (fun w _ => At i { created := c, executed := [migrationSql] }
      (Found c fun versions => key ∉ versions) w) w (ask (.rawSql migrationSql)) :=
  Spec.statement (by simp) hat fun w' hinv _ hheld hfound =>
    ⟨(),w'.update i _,rfl,hinv.update (.inl hheld),Guar.update w' _,at_update hheld hfound⟩

theorem spec_insert {c : Bool} {key : Key} {executed : List String}
    (hat : At i { created := c, executed } (Found c fun versions => key ∉ versions) w) :
    Spec calls old i (fun w _ => At i { created := c, executed, inserted := [key] }
      (Found c fun versions => key ∉ versions) w) w (ask (.insert key)) := by
  refine Spec.statement (by simp) hat fun w' hinv _ hheld hfound => ?_
  have hfree : w'.contended i (fun u => decide (key ∈ u.inserted)) = false :=
    hinv.uncontended hheld (by simp)
  refine ⟨(),w'.update i _,?_,hinv.update (.inl hheld),Guar.update w' _,at_update hheld hfound⟩
  simp [World.execute,hfound.1,hfound.2,hfree]

theorem spec_commit {t : Transaction} {key : Key} {known : List Key → Prop}
    (hat : At i t (Found t.created known) w)
    (hnew : ∀ versions, known versions → versions.Nodup →
      (versions ++ t.inserted).Nodup ∧ key ∈ versions ++ t.inserted)
    (happlied : ∀ versions executed, Applied calls old versions executed →
      Applied calls old (versions ++ t.inserted) (executed ++ t.executed)) :
    Spec calls old i (fun w _ => key ∈ w.versions) w (ask .commit) := by
  refine Spec.statement (by simp) hat fun w' hinv ht hheld hfound => ?_
  obtain ⟨hnodup,hkey⟩ := hnew w'.versions hfound.2 hinv.nodup
  refine ⟨(),_,rfl,⟨hnodup,fun _ => hfound.1,happlied _ _ hinv.applied,(hinv.finish i).idle⟩,
    Guar.finish rfl rfl (.inl hheld) ?_,hkey⟩
  exact List.subset_append_left ..

theorem runComponentMigration_spec (hfresh : w.transactions.get? i = none) :
    Spec calls old i (fun w _ => (calls i).key ∈ w.versions) w
      (runComponentMigration (calls i)) := by
  refine (spec_begin hfresh).bind fun w _ hempty => (spec_lock hempty).bind fun w _ hlocked =>
    (spec_createTable hlocked).bind fun w _ hcreated => ?_
  obtain ⟨c,hcreated⟩ := hcreated
  refine (spec_selectExists hcreated (calls i).key).bind fun w alreadyApplied hseen => ?_
  cases alreadyApplied with
  | true =>
    refine spec_commit hseen (fun versions hknown hnodup => ?_) fun versions executed h => ?_
    · rw [List.append_nil]
      exact ⟨hnodup,of_decide_eq_true hknown.symm⟩
    · rw [List.append_nil,List.append_nil]
      exact h
  | false =>
    have hmissing : At i { created := c } (Found c fun versions => (calls i).key ∉ versions) w := by
      intro u hu
      obtain ⟨heq,hheld,htable,hknown⟩ := hseen u hu
      exact ⟨heq,hheld,htable,of_decide_eq_false hknown.symm⟩
    refine Spec.bind (spec_rawSql hmissing (calls i).migrationSql) fun w _ hexecuted =>
      (spec_insert hexecuted).bind fun w _ hinserted => ?_
    refine spec_commit hinserted (fun versions hknown hnodup => ?_) fun versions executed h => ?_
    · refine ⟨List.Nodup.append hnodup (List.nodup_singleton _) ?_,by simp⟩
      simpa using hknown
    · obtain ⟨new,rfl,hnew⟩ := h
      refine ⟨new ++ [(calls i).key],List.append_assoc ..,?_⟩
      exact List.rel_append hnew (.cons ⟨i,rfl,rfl⟩ .nil)

end Requests

end Spec

/-- However calls interleave, fail, lose their answers and are rolled back, each component's version
is recorded once, for every recorded version the SQL of a call with its key has been committed
once and in that order, a call that succeeds finds its version recorded, and none fails because
of another. -/
theorem migrations_apply_once {calls : CallId → Call} {old : List Key}
    {s : State CallId Request Answer World (Except Error Unit)}
    (h : Reachable (system calls old) s) :
    s.world.versions.Nodup ∧ Applied calls old s.world.versions s.world.executed ∧
      (∀ i, s.client i = .running (.done (.ok ())) → (calls i).key ∈ s.world.versions) ∧
      ∀ i e, s.client i = .running (.done (.error e)) → e = .failed := by
  have hprograms : ∀ i (_ : ℕ) w, (rules calls old).inv w → (rules calls old).fresh i w →
      (rules calls old).Meets i (Ended fun w _ => (calls i).key ∈ w.versions) w
        (runComponentMigration (calls i)).run :=
    fun _ _ _ _ hfresh => runComponentMigration_spec hfresh
  have hinit : ∀ w : World, (w = { table := w.table, versions := old } ∧ old.Nodup ∧
      (old ≠ [] → w.table = true)) → (rules calls old).inv w ∧ ∀ i, (rules calls old).fresh i w := by
    rintro w ⟨heq,hnodup,htable⟩
    rw [heq]
    exact ⟨⟨hnodup,htable,⟨[],(List.append_nil _).symm,.nil⟩,by simp⟩,fun i => rfl⟩
  have hstable : ∀ i w w' (r : Option (Except Error Unit)),
      Ended (fun w _ => (calls i).key ∈ w.versions) w r → (rules calls old).rely i w w' →
      Ended (fun w _ => (calls i).key ∈ w.versions) w' r := by
    intro i w w' r hr hrely
    rcases r with _ | _ | _
    · exact hr
    · exact hr
    · exact hrely.versions hr
  have hinv : Inv calls old s.world := (reachable_sound hprograms hinit h).1
  have hended := reachable_ended hprograms hinit hstable h
  exact ⟨hinv.nodup,hinv.applied,fun i hi => hended i _ _ hi rfl,fun i e hi => hended i _ _ hi rfl⟩

def deliverySource (_ : CallId) : Call := ⟨"delivery-source",1,"CREATE TABLE delivery"⟩

/-- The first call is rolled back, the second one loses the answer to its commit, and the third one,
which has waited for both, finds the version recorded. -/
def racing : List (Label CallId Choice CallId) :=
  [.start 0 0,.start 1 0,.start 2 0,.ask 0 .serve,.ask 1 .serve,.ask 2 .serve,.ask 0 .serve,
    .ask 0 .serve,.ask 0 .serve,.ask 0 .serve,.background 0,.ask 1 .serve,.ask 1 .serve,
    .ask 1 .serve,.ask 1 .serve,.ask 1 .serve,.ask 1 .lose,.ask 2 .serve,.ask 2 .serve,
    .ask 2 .serve,.ask 2 .serve]

theorem migrations_apply_once_racing :
    ∃ s, exec (system deliverySource []) ⟨{},fun _ => .waiting⟩ racing = some s ∧
      s.world.versions = [("delivery-source",1)] ∧
      Applied deliverySource [] s.world.versions s.world.executed ∧
      s.client 2 = .running (.done (.ok ())) ∧ (deliverySource 2).key ∈ s.world.versions := by
  obtain ⟨s,hs,hversions,hclient⟩ : ∃ s,
      exec (system deliverySource []) ⟨{},fun _ => .waiting⟩ racing = some s ∧
      s.world.versions = [("delivery-source",1)] ∧ s.client 2 = .running (.done (.ok ())) :=
    ⟨_,rfl,rfl,rfl⟩
  have hinit : (system deliverySource []).init ⟨{},fun _ => .waiting⟩ :=
    ⟨⟨rfl,List.nodup_nil,by simp⟩,fun _ => rfl⟩
  obtain ⟨_,happlied,hok,_⟩ := migrations_apply_once (Reachable.exec (.init hinit) hs)
  exact ⟨s,hs,hversions,happlied,hclient,hok 2 hclient⟩

end Migrations
end EventCore
