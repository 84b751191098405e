import EventCore.Runs
import Mathlib.Logic.Function.Basic

/-! Programs that put requests to a world they share, run in any interleaving, and the
rely-guarantee rule that lifts what is proved of each program alone to all their runs. -/
namespace EventCore
namespace Interaction
open Runs

/-- A program puts one request after the other and goes on with the answers. At `cut` the
unrolling of a loop ends. -/
inductive Program (Q : Type) (A : Q → Type) (α : Type) : Type
  | done (a : α)
  | cut
  | ask (q : Q) (k : A q → Program Q A α)

namespace Program

variable {Q : Type} {A : Q → Type} {α β : Type}

def bind : Program Q A α → (α → Program Q A β) → Program Q A β
  | .done a, f => f a
  | .cut, _ => .cut
  | .ask q k, f => .ask q fun x => (k x).bind f

instance : Monad (Program Q A) where
  pure := .done
  bind := .bind

@[simp] theorem pure_eq (a : α) : (pure a : Program Q A α) = .done a := rfl

@[simp] theorem done_bind (a : α) (f : α → Program Q A β) : .done a >>= f = f a := rfl

@[simp] theorem cut_bind (f : α → Program Q A β) : (.cut : Program Q A α) >>= f = .cut := rfl

@[simp] theorem ask_bind (q : Q) (k : A q → Program Q A α) (f : α → Program Q A β) :
    .ask q k >>= f = .ask q fun x => k x >>= f := rfl

theorem bind_assoc' {γ : Type} (p : Program Q A α) (f : α → Program Q A β)
    (g : β → Program Q A γ) : p >>= f >>= g = p >>= fun a => f a >>= g := by
  induction p with
  | done a => rfl
  | cut => rfl
  | ask q k ih => exact congrArg (Program.ask q) (funext ih)

theorem bind_done (p : Program Q A α) : p >>= .done = p := by
  induction p with
  | done a => rfl
  | cut => rfl
  | ask q k ih => exact congrArg (Program.ask q) (funext ih)

instance : LawfulMonad (Program Q A) :=
  LawfulMonad.mk' _ bind_done (fun _ _ => rfl) bind_assoc'

def request (q : Q) : Program Q A (A q) := .ask q .done

/-- Every request is answered by a program of a server, which puts finer ones. -/
def expand {Q' : Type} {A' : Q' → Type} (server : ∀ q, Program Q' A' (A q)) :
    Program Q A α → Program Q' A' α
  | .done a => .done a
  | .cut => .cut
  | .ask q k => server q >>= fun a => (k a).expand server

theorem expand_bind {Q' : Type} {A' : Q' → Type} (server : ∀ q, Program Q' A' (A q))
    (p : Program Q A α) (f : α → Program Q A β) :
    (p >>= f).expand server = p.expand server >>= fun a => (f a).expand server := by
  induction p with
  | done a => rfl
  | cut => rfl
  | ask q k ih =>
    simp only [ask_bind,expand,bind_assoc,ih]

/-- How a program that asks nothing more has ended: with a result, or cut off. -/
def ended : Program Q A α → Option (Option α)
  | .done a => some (some a)
  | .cut => some none
  | .ask _ _ => none

theorem eq_of_ended {p : Program Q A α} {a : α} (h : p.ended = some (some a)) : p = .done a := by
  cases p with
  | done b => rw [Option.some.inj (Option.some.inj h)]
  | cut => cases Option.some.inj h
  | ask q k => cases h

/-- Every request that a program may come to put is of one kind. -/
def Only (kind : Q → Prop) : Program Q A α → Prop
  | .done _ => True
  | .cut => True
  | .ask q k => kind q ∧ ∀ a, (k a).Only kind

/-- Requests of one kind up to the one that ends them, and then requests of another kind. -/
def Until (kind last after : Q → Prop) : Program Q A α → Prop
  | .done _ => True
  | .cut => True
  | .ask q k => (kind q ∧ ∀ a, (k a).Until kind last after) ∨ (last q ∧ ∀ a, (k a).Only after)

section Kinds

variable {kind last after : Q → Prop}

theorem Only.bind {p : Program Q A α} {f : α → Program Q A β} (hp : p.Only kind)
    (hf : ∀ a, (f a).Only kind) : (p >>= f).Only kind := by
  induction p with
  | done a => exact hf a
  | cut => trivial
  | ask q k ih => exact ⟨hp.1,fun a => ih a (hp.2 a)⟩

theorem Only.expand {Q' : Type} {A' : Q' → Type} {kind' : Q' → Prop}
    {server : ∀ q, Program Q' A' (A q)} (hserver : ∀ q, kind q → (server q).Only kind')
    {p : Program Q A α} (hp : p.Only kind) : (p.expand server).Only kind' := by
  induction p with
  | done a => trivial
  | cut => trivial
  | ask q k ih => exact (hserver q hp.1).bind fun a => ih a (hp.2 a)

theorem Only.bindUntil {p : Program Q A α} {f : α → Program Q A β} (hp : p.Only kind)
    (hf : ∀ a, (f a).Until kind last after) : (p >>= f).Until kind last after := by
  induction p with
  | done a => exact hf a
  | cut => trivial
  | ask q k ih => exact .inl ⟨hp.1,fun a => ih a (hp.2 a)⟩

theorem Only.map (f : α → β) {p : Program Q A α} (hp : p.Only kind) : (f <$> p).Only kind :=
  hp.bind (f := fun a => .done (f a)) fun _ => trivial

theorem Until.map (f : α → β) {p : Program Q A α} (hp : p.Until kind last after) :
    (f <$> p).Until kind last after := by
  induction p with
  | done a => trivial
  | cut => trivial
  | ask q k ih =>
    rcases hp with ⟨hq,hk⟩ | ⟨hq,hk⟩
    · exact .inl ⟨hq,fun a => ih a (hk a)⟩
    · exact .inr ⟨hq,fun a => (hk a).map f⟩

variable {ε : Type} {p : ExceptT ε (Program Q A) α} {f : α → ExceptT ε (Program Q A) β}

theorem Only.bindExcept (hp : p.run.Only kind) (hf : ∀ a, (f a).run.Only kind) :
    (p >>= f).run.Only kind := by
  refine Only.bind (p := p) (f := ExceptT.bindCont f) hp fun r => ?_
  cases r with
  | ok a => exact hf a
  | error e => trivial

theorem Only.bindExceptUntil (hp : p.run.Only kind) (hf : ∀ a, (f a).run.Until kind last after) :
    (p >>= f).run.Until kind last after := by
  refine Only.bindUntil (p := p) (f := ExceptT.bindCont f) hp fun r => ?_
  cases r with
  | ok a => exact hf a
  | error e => trivial

end Kinds

end Program

/-- What answers requests: `perform` by the choice that settles how the request goes, `none` when
it cannot go that way now; `background` is what the world does by itself. -/
structure Machine (I Q : Type) (A : Q → Type) (W C B : Type) where
  perform : W → I → (q : Q) → C → Option (A q × W)
  background : W → B → Option W

inductive Client (Q : Type) (A : Q → Type) (α : Type)
  | waiting
  | running (p : Program Q A α)
  | gone

def Client.result? {Q : Type} {A : Q → Type} {α : Type} : Client Q A α → Option α
  | .running (.done a) => some a
  | _ => none

theorem Client.eq_of_result? {Q : Type} {A : Q → Type} {α : Type} {client : Client Q A α} {a : α}
    (h : client.result? = some a) : client = .running (.done a) := by
  unfold result? at h
  split at h
  · rw [Option.some.inj h]
  · cases h

structure State (I Q : Type) (A : Q → Type) (W α : Type) where
  world : W
  client : I → Client Q A α

/-- The steps of a run. A client that crashes may leave a last request behind, which is still
performed although its answer reaches nobody. -/
inductive Label (I C B : Type)
  | start (i : I) (unrolling : ℕ)
  | ask (i : I) (c : C)
  | orphan (i : I) (c : C)
  | crash (i : I)
  | background (b : B)

def Label.client? {I C B : Type} : Label I C B → Option I
  | .start i _ | .ask i _ | .orphan i _ | .crash i => some i
  | .background _ => none

variable {I Q : Type} {A : Q → Type} {W C B α β : Type}

namespace Machine

variable [DecidableEq I] (m : Machine I Q A W C B) (programs : I → ℕ → Program Q A α)

def step (s : State I Q A W α) : Label I C B → Option (State I Q A W α)
  | .start i n =>
    match s.client i with
    | .waiting => some ⟨s.world,Function.update s.client i (.running (programs i n))⟩
    | _ => none
  | .ask i c =>
    match s.client i with
    | .running (.ask q k) =>
      (m.perform s.world i q c).map fun r =>
        ⟨r.2,Function.update s.client i (.running (k r.1))⟩
    | _ => none
  | .orphan i c =>
    match s.client i with
    | .running (.ask q _) =>
      (m.perform s.world i q c).map fun r => ⟨r.2,Function.update s.client i .gone⟩
    | _ => none
  | .crash i =>
    match s.client i with
    | .running _ => some ⟨s.world,Function.update s.client i .gone⟩
    | _ => none
  | .background b => (m.background s.world b).map fun w => ⟨w,s.client⟩

/-- What a step finds its client at, and the state it leads to. -/
inductive Steps (s : State I Q A W α) : Label I C B → State I Q A W α → Prop
  | start {i : I} {n : ℕ} : s.client i = .waiting →
      Steps s (.start i n) ⟨s.world,Function.update s.client i (.running (programs i n))⟩
  | ask {i : I} {c : C} {q : Q} {k : A q → Program Q A α} {a : A q} {w : W} :
      s.client i = .running (.ask q k) → m.perform s.world i q c = some (a,w) →
      Steps s (.ask i c) ⟨w,Function.update s.client i (.running (k a))⟩
  | orphan {i : I} {c : C} {q : Q} {k : A q → Program Q A α} {a : A q} {w : W} :
      s.client i = .running (.ask q k) → m.perform s.world i q c = some (a,w) →
      Steps s (.orphan i c) ⟨w,Function.update s.client i .gone⟩
  | crash {i : I} {p : Program Q A α} : s.client i = .running p →
      Steps s (.crash i) ⟨s.world,Function.update s.client i .gone⟩
  | background {b : B} {w : W} : m.background s.world b = some w →
      Steps s (.background b) ⟨w,s.client⟩

variable {m programs}

theorem step_cases {s t : State I Q A W α} {l : Label I C B} (h : m.step programs s l = some t) :
    m.Steps programs s l t := by
  cases l with
  | start i n =>
    simp only [step] at h
    split at h
    · next hwaiting =>
      cases h
      exact .start hwaiting
    · cases h
  | ask i c =>
    simp only [step] at h
    split at h
    · next hrunning =>
      obtain ⟨⟨a,w⟩,hperform,rfl⟩ := Option.map_eq_some_iff.mp h
      exact .ask hrunning hperform
    · cases h
  | orphan i c =>
    simp only [step] at h
    split at h
    · next hrunning =>
      obtain ⟨⟨a,w⟩,hperform,rfl⟩ := Option.map_eq_some_iff.mp h
      exact .orphan hrunning hperform
    · cases h
  | crash i =>
    simp only [step] at h
    split at h
    · next hrunning =>
      cases h
      exact .crash hrunning
    · cases h
  | background b =>
    obtain ⟨w,hback,rfl⟩ := Option.map_eq_some_iff.mp h
    exact .background hback

theorem Steps.client_eq {s t : State I Q A W α} {l : Label I C B} (h : m.Steps programs s l t)
    {i : I} (hother : l.client? ≠ some i) : t.client i = s.client i := by
  have hne : ∀ {j : I}, l.client? = some j → i ≠ j := fun hj he => hother (he ▸ hj)
  cases h with
  | background => rfl
  | _ => exact Function.update_of_ne (hne rfl) _ _

variable (m programs)

/-- Every client, once started, runs its program, its loops unrolled as often as the label says. -/
def system (initial : W → Prop) : System (State I Q A W α) (Label I C B) where
  init s := initial s.world ∧ ∀ i, s.client i = .waiting
  step := m.step programs

end Machine

/-- What a client may rely on while others move, what it has to guarantee them, and what all
keep. `fresh` is what a client finds when it starts. -/
structure Rules (m : Machine I Q A W C B) where
  inv : W → Prop
  rely : I → W → W → Prop
  guar : I → W → W → Prop
  fresh : I → W → Prop
  rely_refl : ∀ i w, rely i w w
  rely_trans : ∀ {i u v w}, rely i u v → rely i v w → rely i u w
  guar_rely : ∀ {i j w w'}, i ≠ j → inv w → guar i w w' → rely j w w'
  fresh_rely : ∀ {i w w'}, fresh i w → rely i w w' → fresh i w'
  background_inv : ∀ {w w' b}, inv w → m.background w b = some w' → inv w'
  background_rely : ∀ {i w w' b}, inv w → m.background w b = some w' → rely i w w'

namespace Rules

variable {m : Machine I Q A W C B} (R : Rules m) (i : I)

/-- Whatever the others do between two requests, every request that is performed keeps the
invariant and the guarantee, and the program ends as `post` says. -/
def Meets (post : W → Option α → Prop) : W → Program Q A α → Prop
  | w, .done a => post w (some a)
  | w, .cut => post w none
  | w, .ask q k => ∀ w', R.rely i w w' → R.inv w' → ∀ c a w'', m.perform w' i q c = some (a,w'') →
      R.inv w'' ∧ R.guar i w' w'' ∧ Meets post w'' (k a)

variable {R i}

theorem Meets.mono {post post' : W → Option α → Prop} (h : ∀ w r, post w r → post' w r) {w : W}
    {p : Program Q A α} (hp : R.Meets i post w p) : R.Meets i post' w p := by
  induction p generalizing w with
  | done a => exact h w (some a) hp
  | cut => exact h w none hp
  | ask q k ih =>
    intro w' hrely hinv c a w'' hperform
    obtain ⟨hinv',hguar,hk⟩ := hp w' hrely hinv c a w'' hperform
    exact ⟨hinv',hguar,ih a hk⟩

theorem Meets.bind {post : W → Option β → Prop} {w : W} {p : Program Q A α}
    {f : α → Program Q A β}
    (hp : R.Meets i (fun w r => r.elim (post w none) fun a => R.Meets i post w (f a)) w p) :
    R.Meets i post w (p >>= f) := by
  induction p generalizing w with
  | done a => exact hp
  | cut => exact hp
  | ask q k ih =>
    intro w' hrely hinv c a w'' hperform
    obtain ⟨hinv',hguar,hk⟩ := hp w' hrely hinv c a w'' hperform
    exact ⟨hinv',hguar,ih a hk⟩

theorem Meets.bindExcept {ε : Type} {post : W → Option (Except ε β) → Prop} {w : W}
    {p : ExceptT ε (Program Q A) α} {f : α → ExceptT ε (Program Q A) β}
    (hp : R.Meets i (fun w (r : Option (Except ε α)) => match r with
      | none => post w none
      | some (.error e) => post w (some (.error e))
      | some (.ok a) => R.Meets i post w (f a)) w p) :
    R.Meets i post w (p >>= f : ExceptT ε (Program Q A) β) := by
  refine Meets.bind (p := p) (f := ExceptT.bindCont f) (hp.mono ?_)
  intro w r hr
  match r with
  | none => exact hr
  | some (.error e) => exact hr
  | some (.ok a) => exact hr

theorem Meets.stable {post : W → Option α → Prop} {w w' : W} {q : Q} {k : A q → Program Q A α}
    (h : R.Meets i post w (.ask q k)) (hrely : R.rely i w w') : R.Meets i post w' (.ask q k) :=
  fun u hu => h u (R.rely_trans hrely hu)

end Rules

section Runs

variable {m : Machine I Q A W C B} (R : Rules m) (programs : I → ℕ → Program Q A α)
  (post : I → W → Option α → Prop)

def ClientOk (w : W) (i : I) : Client Q A α → Prop
  | .waiting => R.fresh i w
  | .running (.ask q k) => R.Meets i (post i) w (.ask q k)
  | _ => True

variable {R post}

theorem ClientOk.stable {w w' : W} {i : I} {client : Client Q A α}
    (h : ClientOk R post w i client) (hrely : R.rely i w w') : ClientOk R post w' i client := by
  match client with
  | .waiting => exact R.fresh_rely h hrely
  | .running (.ask q k) => exact Rules.Meets.stable h hrely
  | .running (.done _) => trivial
  | .running .cut => trivial
  | .gone => trivial

theorem ClientOk.running {w : W} {i : I} {p : Program Q A α} (h : R.Meets i (post i) w p) :
    ClientOk R post w i (.running p) := by
  match p with
  | .done _ => trivial
  | .cut => trivial
  | .ask q k => exact h

variable [DecidableEq I] {programs} {initial : W → Prop}
  (hprograms : ∀ i n w, R.inv w → R.fresh i w → R.Meets i (post i) w (programs i n))

include hprograms in
/-- One step keeps the invariant and every client in order, moves the world as its client
guarantees, and ends a program only as promised. -/
theorem step_sound {s t : State I Q A W α} {l : Label I C B} (hinv : R.inv s.world)
    (hclients : ∀ i, ClientOk R post s.world i (s.client i))
    (hstep : m.step programs s l = some t) :
    R.inv t.world ∧ (∀ i, ClientOk R post t.world i (t.client i)) ∧
      match l with
      | .start i _ => t.world = s.world ∧
          ∀ p r, t.client i = .running p → p.ended = some r → post i t.world r
      | .ask i _ => R.guar i s.world t.world ∧
          ∀ p r, t.client i = .running p → p.ended = some r → post i t.world r
      | .orphan i _ => R.guar i s.world t.world
      | .crash _ => t.world = s.world
      | .background _ => ∀ i, R.rely i s.world t.world := by
  have hupdate : ∀ {w : W} {i : I} {client : Client Q A α},
      (∀ j, i ≠ j → R.rely j s.world w) → ClientOk R post w i client →
      ∀ j, ClientOk R post w j (Function.update s.client i client j) := by
    intro w i client hrely hclient j
    by_cases hj : j = i
    · subst hj
      rwa [Function.update_self]
    · rw [Function.update_of_ne hj]
      exact (hclients j).stable (hrely j (Ne.symm hj))
  have hended : ∀ {w : W} {i : I} {p : Program Q A α}, R.Meets i (post i) w p →
      ∀ p' r, Function.update s.client i (.running p) i = .running p' → p'.ended = some r →
        post i w r := by
    intro w i p hp p' r hp' hr
    rw [Function.update_self,Client.running.injEq] at hp'
    subst hp'
    match p with
    | .done a => exact Option.some.inj hr ▸ hp
    | .cut => exact Option.some.inj hr ▸ hp
    | .ask q k => cases hr
  cases Machine.step_cases hstep with
  | @start i n hwaiting =>
    have hfresh := hclients i
    rw [hwaiting] at hfresh
    have hmeets := hprograms i n s.world hinv hfresh
    exact ⟨hinv,hupdate (fun j _ => R.rely_refl j _) (.running hmeets),rfl,hended hmeets⟩
  | @ask i c q k a w hrunning hperform =>
    have hasks := hclients i
    rw [hrunning] at hasks
    obtain ⟨hinv',hguar,hmeets⟩ := hasks s.world (R.rely_refl i _) hinv c a w hperform
    exact ⟨hinv',hupdate (fun j hij => R.guar_rely hij hinv hguar) (.running hmeets),hguar,
      hended hmeets⟩
  | @orphan i c q k a w hrunning hperform =>
    have hasks := hclients i
    rw [hrunning] at hasks
    obtain ⟨hinv',hguar,_⟩ := hasks s.world (R.rely_refl i _) hinv c a w hperform
    exact ⟨hinv',hupdate (fun j hij => R.guar_rely hij hinv hguar) trivial,hguar⟩
  | crash => exact ⟨hinv,hupdate (fun j _ => R.rely_refl j _) trivial,rfl⟩
  | background hback =>
    exact ⟨R.background_inv hinv hback,
      fun i => (hclients i).stable (R.background_rely hinv hback),
      fun i => R.background_rely hinv hback⟩

include hprograms in
theorem step_world {s t : State I Q A W α} {l : Label I C B} (hinv : R.inv s.world)
    (hclients : ∀ i, ClientOk R post s.world i (s.client i))
    (hstep : m.step programs s l = some t) :
    t.world = s.world ∨ (∃ i, l.client? = some i ∧ R.guar i s.world t.world) ∨
      l.client? = none ∧ ∃ b, m.background s.world b = some t.world := by
  obtain ⟨_,_,hlabel⟩ := step_sound hprograms hinv hclients hstep
  cases l with
  | start i n => exact .inl hlabel.1
  | ask i c => exact .inr (.inl ⟨i,rfl,hlabel.1⟩)
  | orphan i c => exact .inr (.inl ⟨i,rfl,hlabel⟩)
  | crash i => exact .inl hlabel
  | background b =>
    obtain ⟨w,hback,rfl⟩ := Option.map_eq_some_iff.mp hstep
    exact .inr (.inr ⟨rfl,b,hback⟩)

include hprograms in
theorem step_other {s t : State I Q A W α} {l : Label I C B} {i : I} (hinv : R.inv s.world)
    (hclients : ∀ i, ClientOk R post s.world i (s.client i))
    (hstep : m.step programs s l = some t) (hother : l.client? ≠ some i) :
    t.client i = s.client i ∧ R.rely i s.world t.world := by
  obtain ⟨_,_,hlabel⟩ := step_sound hprograms hinv hclients hstep
  refine ⟨(Machine.step_cases hstep).client_eq hother,?_⟩
  have hne : ∀ {j : I}, l.client? = some j → j ≠ i := fun hj he => hother (he ▸ hj)
  cases l with
  | start j n => exact hlabel.1 ▸ R.rely_refl i _
  | ask j c => exact R.guar_rely (hne rfl) hinv hlabel.1
  | orphan j c => exact R.guar_rely (hne rfl) hinv hlabel
  | crash j => exact (show t.world = s.world from hlabel) ▸ R.rely_refl i _
  | background b => exact hlabel i

variable (hinit : ∀ w, initial w → R.inv w ∧ ∀ i, R.fresh i w)

include hprograms hinit in
theorem reachable_sound {s : State I Q A W α}
    (h : Reachable (m.system programs initial) s) :
    R.inv s.world ∧ ∀ i, ClientOk R post s.world i (s.client i) := by
  refine ReachableBy.invariant (I := fun s : State I Q A W α =>
    R.inv s.world ∧ ∀ i, ClientOk R post s.world i (s.client i)) ?_ ?_ h
  · rintro s ⟨hworld,hwaiting⟩
    obtain ⟨hinv,hfresh⟩ := hinit s.world hworld
    refine ⟨hinv,fun i => ?_⟩
    rw [hwaiting i]
    exact hfresh i
  · rintro s l t ⟨hinv,hclients⟩ _ hstep
    obtain ⟨hinv',hclients',_⟩ := step_sound hprograms hinv hclients hstep
    exact ⟨hinv',hclients'⟩

variable (hstable : ∀ i w w' r, post i w r → R.rely i w w' → post i w' r)

include hprograms hinit hstable in
theorem reachable_ended {s : State I Q A W α} (h : Reachable (m.system programs initial) s)
    (i : I) (p : Program Q A α) (r : Option α) (hp : s.client i = .running p)
    (hr : p.ended = some r) : post i s.world r := by
  induction h generalizing i p r with
  | init hinit' =>
    rw [hinit'.2 i] at hp
    cases hp
  | @step s t l hs _ hstep ih =>
    obtain ⟨hinv,hclients⟩ := reachable_sound hprograms hinit hs
    have hsteps : m.Steps programs s l t := Machine.step_cases hstep
    by_cases hown : l.client? = some i
    · obtain ⟨_,_,hlabel⟩ := step_sound hprograms hinv hclients hstep
      cases l with
      | start j n =>
        obtain rfl : j = i := Option.some.inj hown
        exact hlabel.2 p r hp hr
      | ask j c =>
        obtain rfl : j = i := Option.some.inj hown
        exact hlabel.2 p r hp hr
      | orphan j c | crash j =>
        obtain rfl : j = i := Option.some.inj hown
        cases hsteps
        cases (Function.update_self j Client.gone s.client).symm.trans hp
      | background b => cases hown
    · obtain ⟨hclient,hrely⟩ := step_other hprograms hinv hclients hstep hown
      exact hstable i _ _ r (ih i p r (hclient ▸ hp) hr) hrely

end Runs

section Stopped

variable {m : Machine I Q A W C B} {programs programs' : I → ℕ → Program Q A α} [DecidableEq I]
  {initial : W → Prop} {i : I}

theorem step_done {s t : State I Q A W α} {l : Label I C B} {a : α}
    (h : s.client i = .running (.done a) ∨ s.client i = .gone)
    (hstep : m.step programs s l = some t) :
    t.client i = .running (.done a) ∨ t.client i = .gone := by
  have hother : ∀ {j : I} {client : Client Q A α}, s.client j ≠ .running (.done a) →
      s.client j ≠ .gone → Function.update s.client j client i = .running (.done a) ∨
        Function.update s.client j client i = .gone := by
    intro j client hdone hgone
    rw [Function.update_of_ne]
    · exact h
    · rintro rfl
      exact h.elim hdone hgone
  cases Machine.step_cases hstep with
  | start hwaiting => exact hother (by simp [hwaiting]) (by simp [hwaiting])
  | ask hrunning | orphan hrunning => exact hother (by simp [hrunning]) (by simp [hrunning])
  | @crash j =>
    by_cases hij : i = j
    · subst hij
      exact .inr (Function.update_self _ _ _)
    · exact h.imp (Function.update_of_ne hij _ _).trans (Function.update_of_ne hij _ _).trans
  | background => exact h

theorem exec_done {s t : State I Q A W α} {labels : List (Label I C B)} {a : α}
    (h : s.client i = .running (.done a) ∨ s.client i = .gone)
    (hexec : exec (m.system programs initial) s labels = some t) :
    t.client i = .running (.done a) ∨ t.client i = .gone := by
  induction labels generalizing s with
  | nil => exact Option.some.inj hexec ▸ h
  | cons l labels ih =>
    obtain ⟨u,hu,ht⟩ := Option.bind_eq_some_iff.mp hexec
    exact ih (step_done h hu) ht

theorem exec_congr (hprograms : ∀ j, j ≠ i → programs j = programs' j)
    {s : State I Q A W α} {labels : List (Label I C B)} (hs : s.client i ≠ .waiting) :
    exec (m.system programs initial) s labels = exec (m.system programs' initial) s labels := by
  have hstep : ∀ {s : State I Q A W α} {l : Label I C B}, s.client i ≠ .waiting →
      m.step programs s l = m.step programs' s l ∧
        ∀ t, m.step programs s l = some t → t.client i ≠ .waiting := by
    intro s l hs
    have hupdate : ∀ {j : I} {client : Client Q A α}, client ≠ .waiting →
        Function.update s.client j client i ≠ .waiting := by
      intro j client hclient
      by_cases hij : i = j
      · subst hij
        rwa [Function.update_self]
      · rwa [Function.update_of_ne hij]
    constructor
    · cases l with
      | start j n =>
        by_cases hji : j = i
        · subst hji
          cases hclient : s.client j with
          | waiting => exact absurd hclient hs
          | running p | gone => simp only [Machine.step,hclient]
        · simp only [Machine.step,hprograms j hji]
      | ask j c | orphan j c | crash j | background b => rfl
    · intro t ht
      cases Machine.step_cases ht with
      | background => exact hs
      | _ => exact hupdate (by simp)
  induction labels generalizing s with
  | nil => rfl
  | cons l labels ih =>
    obtain ⟨heq,hwaiting⟩ := hstep (l := l) hs
    simp only [exec_cons,Machine.system] at ih ⊢
    rw [← heq]
    cases hl : m.step programs s l with
    | none => rfl
    | some t => exact ih (hwaiting t hl)

end Stopped

section Sequence

variable {m : Machine I Q A W C B} {R : Rules m} {programs : I → ℕ → Program Q A α}
  {post : I → W → Option α → Prop} [DecidableEq I] {initial : W → Prop}
  (hprograms : ∀ i n w, R.inv w → R.fresh i w → R.Meets i (post i) w (programs i n))
  (hinit : ∀ w, initial w → R.inv w ∧ ∀ i, R.fresh i w)
  {i : I} {first : ℕ → Program Q A β} {rest : ℕ → β → Program Q A α} {mid : W → Option β → Prop}

/-- Where a client stands whose program has two parts; in the second one the run so far has come
through a state in which that part began. -/
inductive Phase (R : Rules m) (programs : I → ℕ → Program Q A α) (initial : W → Prop) (i : I)
    (rest : ℕ → β → Program Q A α) (mid : W → Option β → Prop) (s : State I Q A W α) : Prop
  | waiting (h : s.client i = .waiting)
  | gone (h : s.client i = .gone)
  | cut (h : s.client i = .running .cut)
  | first (n : ℕ) (q : Q) (k : A q → Program Q A β)
      (h : s.client i = .running (.ask q k >>= rest n)) (hmeets : R.Meets i mid s.world (.ask q k))
  | rest (n : ℕ) (a : β) (u : State I Q A W α) (labels : List (Label I C B))
      (hu : Reachable (m.system programs initial) u) (h : u.client i = .running (rest n a))
      (hmid : mid u.world (some a)) (hexec : exec (m.system programs initial) u labels = some s)

theorem Phase.of_meets {s : State I Q A W α} {n : ℕ} {p : Program Q A β}
    (hs : Reachable (m.system programs initial) s) (h : s.client i = .running (p >>= rest n))
    (hmeets : R.Meets i mid s.world p) : Phase R programs initial i rest mid s := by
  match p with
  | .done a => exact .rest n a s [] hs h hmeets rfl
  | .cut => exact .cut h
  | .ask q k => exact .first n q k h hmeets

include hprograms hinit in
theorem reachable_phase (hi : ∀ n, programs i n = first n >>= rest n)
    (hfirst : ∀ n w, R.inv w → R.fresh i w → R.Meets i mid w (first n))
    {s : State I Q A W α} (h : Reachable (m.system programs initial) s) :
    Phase R programs initial i rest mid s := by
  induction h with
  | init hinit' => exact .waiting (hinit'.2 i)
  | @step s t l hs _ hstep ih =>
    have ht : Reachable (m.system programs initial) t := hs.step trivial hstep
    obtain ⟨hinv,hclients⟩ := reachable_sound hprograms hinit hs
    by_cases hrest : ∃ n a u labels, Reachable (m.system programs initial) u ∧
        u.client i = .running (rest n a) ∧ mid u.world (some a) ∧
        exec (m.system programs initial) u labels = some s
    · obtain ⟨n,a,u,labels,hu,hclient,hmid,hexec⟩ := hrest
      refine .rest n a u (labels ++ [l]) hu hclient hmid ?_
      rw [exec_append,hexec,Option.bind_some,exec_cons,hstep]
      rfl
    · by_cases hown : l.client? = some i
      · have hsteps : m.Steps programs s l t := Machine.step_cases hstep
        cases hsteps with
        | @start j n hwaiting =>
          obtain rfl : j = i := Option.some.inj hown
          have hclient := hclients j
          rw [hwaiting] at hclient
          refine Phase.of_meets (n := n) ht ?_ (hfirst n s.world hinv hclient)
          simp only [Function.update_self,hi]
        | @ask j c q' k' a' w hrunning hperform =>
          obtain rfl : j = i := Option.some.inj hown
          rcases ih with hw | hw | hw | ⟨n,q,k,hw,hmeets⟩ | ⟨n,a,u,labels,hu,hw,hmid,hexec⟩
          · cases hrunning.symm.trans hw
          · cases hrunning.symm.trans hw
          · cases hrunning.symm.trans hw
          · cases hrunning.symm.trans hw
            obtain ⟨_,_,hk⟩ := hmeets s.world (R.rely_refl j _) hinv c a' w hperform
            exact Phase.of_meets (n := n) ht (by simp only [Function.update_self]; rfl) hk
          · exact absurd ⟨n,a,u,labels,hu,hw,hmid,hexec⟩ hrest
        | @orphan j | @crash j =>
          obtain rfl : j = i := Option.some.inj hown
          exact .gone (Function.update_self _ _ _)
        | background => cases hown
      · obtain ⟨hclient,hrely⟩ := step_other hprograms hinv hclients hstep hown
        rcases ih with hw | hw | hw | ⟨n,q,k,hw,hmeets⟩ | ⟨n,a,u,labels,hu,hw,hmid,hexec⟩
        · exact .waiting (hclient.trans hw)
        · exact .gone (hclient.trans hw)
        · exact .cut (hclient.trans hw)
        · exact .first n q k (hclient.trans hw) (hmeets.stable hrely)
        · exact absurd ⟨n,a,u,labels,hu,hw,hmid,hexec⟩ hrest

end Sequence

end Interaction
end EventCore
