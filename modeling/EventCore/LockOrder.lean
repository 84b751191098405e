import EventCore.Interaction
import Mathlib.Data.Set.Finite.Basic
import Mathlib.Logic.Relation
import Mathlib.Order.RelClasses

/-! Exclusive locks, who waits for whom at them, and the order of locking that keeps the waiting
acyclic along every run of programs that take locks. -/
namespace EventCore
namespace LockOrder
open Interaction Runs Relation

section Graph

structure Locks (Owner Lock : Type) where
  holder : Lock → Option Owner
  requested : Owner → Option Lock

variable {Owner Lock : Type}

/-- An owner waits for another one that holds the lock it asks for. -/
def Locks.WaitsFor (locks : Locks Owner Lock) (t u : Owner) : Prop :=
  t ≠ u ∧ ∃ l, locks.requested t = some l ∧ locks.holder l = some u

def Acyclic (r : Owner → Owner → Prop) : Prop := ∀ t, ¬ TransGen r t t

theorem Acyclic.exists_last {r : Owner → Owner → Prop} (h : Acyclic r)
    (hfinite : {t | ∃ u, r t u}.Finite) (t : Owner) : ∃ u, ReflTransGen r t u ∧ ∀ v, ¬ r u v := by
  have hwf : WellFounded fun a b : {t | ∃ u, r t u} => TransGen r b.1 a.1 := by
    have := hfinite.to_subtype
    have : IsTrans {t | ∃ u, r t u} fun a b => TransGen r b.1 a.1 := ⟨fun _ _ _ h h' => h'.trans h⟩
    have : Std.Irrefl fun a b : {t | ∃ u, r t u} => TransGen r b.1 a.1 := ⟨fun a => h a.1⟩
    exact Finite.wellFounded_of_trans_of_irrefl _
  have hwaiting : ∀ a : {t | ∃ u, r t u}, ∃ u, ReflTransGen r a.1 u ∧ ∀ v, ¬ r u v := by
    intro a
    induction a using hwf.induction with
    | _ a ih =>
      obtain ⟨u,hu⟩ := a.2
      by_cases hlast : ∃ v, r u v
      · obtain ⟨v,hv,hend⟩ := ih ⟨u,hlast⟩ (.single hu)
        exact ⟨v,hv.head hu,hend⟩
      · exact ⟨u,.single hu,not_exists.mp hlast⟩
  by_cases ht : ∃ u, r t u
  · exact hwaiting ⟨t,ht⟩
  · exact ⟨t,.refl,not_exists.mp ht⟩

/-- An order of locking. A lock with a guard is taken under its guard only, and needs no place in
the order itself. -/
structure Discipline (Lock : Type) where
  guard : Lock → Option Lock
  before : Lock → Lock → Prop
  irrefl : ∀ l, ¬ before l l
  trans : ∀ {l l' l''}, before l l' → before l' l'' → before l l''

variable (discipline : Discipline Lock)

def Discipline.Closed (held : Set Lock) : Prop :=
  ∀ l ∈ held, ∀ g, discipline.guard l = some g → g ∈ held

/-- What may be asked for by one that holds the locks of the set. -/
def Discipline.Admits (held : Set Lock) (l : Lock) : Prop :=
  l ∈ held ∨ (∃ g, discipline.guard l = some g ∧ g ∈ held) ∨
    discipline.guard l = none ∧ ∀ l' ∈ held, discipline.guard l' = none → discipline.before l' l

structure Locks.Ordered (locks : Locks Owner Lock) : Prop where
  closed : ∀ t, discipline.Closed {l | locks.holder l = some t}
  admits : ∀ t l, locks.requested t = some l → discipline.Admits {l | locks.holder l = some t} l

variable {discipline} {locks : Locks Owner Lock} {t u v : Owner}

theorem Locks.Ordered.guard_eq_none (h : locks.Ordered discipline) {l : Lock} (htu : t ≠ u)
    (hrequested : locks.requested t = some l) (hholder : locks.holder l = some u) :
    discipline.guard l = none ∧ ∀ l', locks.holder l' = some t → discipline.guard l' = none →
      discipline.before l' l := by
  rcases h.admits t l hrequested with hheld | ⟨g,hguard,hg⟩ | hrank
  · exact absurd (Option.some.inj (hheld.symm.trans hholder)) htu
  · have hg' : locks.holder g = some u := h.closed u l hholder g hguard
    exact absurd (Option.some.inj ((show locks.holder g = some t from hg).symm.trans hg')) htu
  · exact hrank

theorem Locks.Ordered.before_of_transGen (h : locks.Ordered discipline)
    (htu : TransGen locks.WaitsFor t u) (huv : locks.WaitsFor u v) {l : Lock}
    (hl : locks.requested t = some l) :
    ∃ l', locks.requested u = some l' ∧ discipline.before l l' := by
  have hedge : ∀ {t u v : Owner} {l : Lock}, locks.WaitsFor t u → locks.WaitsFor u v →
      locks.requested t = some l → ∃ l', locks.requested u = some l' ∧ discipline.before l l' := by
    rintro t u v l ⟨htu,k,hk,hholder⟩ ⟨huv,l',hl',hholder'⟩ hl
    obtain rfl := Option.some.inj (hk.symm.trans hl)
    exact ⟨l',hl',(h.guard_eq_none huv hl' hholder').2 k hholder
      (h.guard_eq_none htu hl hholder).1⟩
  induction htu generalizing v with
  | single htu => exact hedge htu huv hl
  | tail _ hbc ih =>
    obtain ⟨l',hl',hbefore⟩ := ih hbc
    obtain ⟨l'',hl'',hbefore'⟩ := hedge hbc huv hl'
    exact ⟨l'',hl'',discipline.trans hbefore hbefore'⟩

theorem Locks.Ordered.acyclic (h : locks.Ordered discipline) : Acyclic locks.WaitsFor := by
  intro t ht
  obtain ⟨u,htu,_⟩ := TransGen.head'_iff.mp ht
  obtain ⟨l,hl,_⟩ := htu.2
  obtain ⟨l',hl',hbefore⟩ := h.before_of_transGen ht htu hl
  obtain rfl := Option.some.inj (hl.symm.trans hl')
  exact discipline.irrefl l hbefore

end Graph

section Table

variable {Lock I Q : Type} {A : Q → Type} {W C B : Type}

/-- What a step leaves one owner with: it stays live and keeps its locks, with those it has gained,
or it is live no longer and keeps none. -/
structure Moves (live live' : Prop) (held held' gained : Set Lock) : Prop where
  stays : live' → live ∧ held' = held ∪ gained
  ends : ¬ live' → held' = ∅

def Tidy (holder : Lock → Option I) (live : I → Bool) : Prop :=
  ∀ l i, holder l = some i → live i = true

theorem Tidy.moves {holder holder' : Lock → Option I} {live live' : I → Bool} {i : I}
    (h : Tidy holder live) {gained : Set Lock} (hlive : live' i = live i)
    (hheld : {l | holder' l = some i} = {l | holder l = some i} ∪ gained)
    (hgained : ¬ live i → gained = ∅) :
    Moves (live i) (live' i) {l | holder l = some i} {l | holder' l = some i} gained := by
  refine ⟨fun h' => ⟨hlive ▸ h',hheld⟩,fun h' => ?_⟩
  have hidle : ¬ live i := hlive ▸ h'
  rw [hheld,hgained hidle,Set.union_empty,Set.eq_empty_iff_forall_notMem]
  exact fun l hl => hidle (h l i hl)

/-- How a machine keeps exclusive locks: an owner may hold locks while it is live, from the request
that starts it until its end, which gives all its locks back. -/
structure LockTable (m : Machine I Q A W C B) (Lock : Type) where
  holder : W → Lock → Option I
  live : W → I → Bool
  starts : Q → Bool
  asks : Q → Option Lock
  granted : (q : Q) → A q → Bool
  other : ∀ {w w' i j q c a}, Tidy (holder w) (live w) → m.perform w i q c = some (a,w') → j ≠ i →
    Moves (live w j) (live w' j) {l | holder w l = some j} {l | holder w' l = some j} ∅
  own : ∀ {w w' i q c a}, Tidy (holder w) (live w) → m.perform w i q c = some (a,w') →
    starts q = false →
    Moves (live w i) (live w' i) {l | holder w l = some i} {l | holder w' l = some i}
      {l | asks q = some l ∧ granted q a}
  start : ∀ {w w' i q c a}, Tidy (holder w) (live w) → m.perform w i q c = some (a,w') →
    starts q = true →
    (granted q a ∧ {l | holder w' l = some i} = ∅) ∨
      ¬ granted q a ∧
        Moves (live w i) (live w' i) {l | holder w l = some i} {l | holder w' l = some i} ∅
  background : ∀ {w w' b}, Tidy (holder w) (live w) → m.background w b = some w' → ∀ i,
    Moves (live w i) (live w' i) {l | holder w l = some i} {l | holder w' l = some i} ∅

variable {m : Machine I Q A W C B} (T : LockTable m Lock)

namespace LockTable

def held (w : W) (i : I) : Set Lock := {l | T.holder w l = some i}

/-- The locks of a state: a live owner asks for the lock of its next request. -/
def locks {α : Type} (s : State I Q A W α) : Locks I Lock where
  holder := T.holder s.world
  requested i :=
    match s.client i with
    | .running (.ask q _) => if T.live s.world i then T.asks q else none
    | _ => none

theorem live_of_requested {α : Type} {T : LockTable m Lock} {s : State I Q A W α} {i : I} {l : Lock}
    (h : (T.locks s).requested i = some l) : T.live s.world i = true := by
  simp only [locks] at h
  split at h
  · split_ifs at h with hlive
    exact hlive
  · cases h

def gained (q : Q) (a : A q) : Set Lock := {l | T.asks q = some l ∧ T.granted q a}

variable {α : Type} (discipline : Discipline Lock)

/-- A program that, from the locks it holds on, never starts again, takes each further lock as the
discipline admits it, and ends as `post` says. -/
def Orderly (post : Set Lock → α → Prop) : Set Lock → Program Q A α → Prop
  | held,.done a => post held a
  | _,.cut => True
  | held,.ask q k => T.starts q = false ∧ (∀ l, T.asks q = some l → discipline.Admits held l) ∧
      ∀ a, Orderly post (held ∪ T.gained q a) (k a)

def Quiet (p : Program Q A α) : Prop := p.Only fun q => T.starts q = false

/-- A program that first of all starts, and is orderly if it could. -/
def Starting : Program Q A α → Prop
  | .ask q k => T.starts q = true ∧
      ∀ a, if T.granted q a then T.Orderly discipline (fun _ _ => True) ∅ (k a) else T.Quiet (k a)
  | _ => False

variable {T discipline} {held : Set Lock} {post : Set Lock → α → Prop}

theorem Orderly.quiet {p : Program Q A α} (h : T.Orderly discipline post held p) : T.Quiet p := by
  induction p generalizing held with
  | done a => trivial
  | cut => trivial
  | ask q k ih => exact ⟨h.1,fun a => ih a (h.2.2 a)⟩

theorem Orderly.mono {post' : Set Lock → α → Prop} (hpost : ∀ held a, post held a → post' held a)
    {p : Program Q A α} (h : T.Orderly discipline post held p) :
    T.Orderly discipline post' held p := by
  induction p generalizing held with
  | done a => exact hpost held a h
  | cut => trivial
  | ask q k ih => exact ⟨h.1,h.2.1,fun a => ih a (h.2.2 a)⟩

theorem Orderly.bind {β : Type} {post : Set Lock → β → Prop} {p : Program Q A α}
    {f : α → Program Q A β}
    (h : T.Orderly discipline (fun held a => T.Orderly discipline post held (f a)) held p) :
    T.Orderly discipline post held (p >>= f) := by
  induction p generalizing held with
  | done a => exact h
  | cut => trivial
  | ask q k ih => exact ⟨h.1,h.2.1,fun a => ih a (h.2.2 a)⟩

theorem Orderly.of_only {base : Set Lock} {kind : Q → Prop}
    (hkind : ∀ q, kind q → T.starts q = false ∧
      ∀ held l, base ⊆ held → T.asks q = some l → discipline.Admits held l)
    {p : Program Q A α} (hp : p.Only kind) (hbase : base ⊆ held) :
    T.Orderly discipline (fun _ _ => True) held p := by
  induction p generalizing held with
  | done a => trivial
  | cut => trivial
  | ask q k ih =>
    obtain ⟨hstarts,hadmits⟩ := hkind q hp.1
    exact ⟨hstarts,fun l => hadmits held l hbase,
      fun a => ih a (hp.2 a) (hbase.trans Set.subset_union_left)⟩

variable (T discipline)

def ClientOk (w : W) (i : I) : Client Q A α → Prop
  | .waiting => ¬ T.live w i
  | .running p => (T.live w i → T.Orderly discipline (fun _ _ => True) (T.held w i) p) ∧
      (¬ T.live w i → T.Starting discipline p ∨ T.Quiet p)
  | .gone => True

variable {T discipline} {w w' : W} {i : I}

theorem ClientOk.stable {client : Client Q A α} (h : T.ClientOk discipline w i client)
    (hmoves : Moves (T.live w i) (T.live w' i) (T.held w i) (T.held w' i) ∅) :
    T.ClientOk discipline w' i client := by
  match client with
  | .waiting => exact fun hlive => h (hmoves.stays hlive).1
  | .gone => trivial
  | .running p =>
    refine ⟨fun hlive => ?_,fun hlive => ?_⟩
    · obtain ⟨hlive',hheld⟩ := hmoves.stays hlive
      rw [hheld,Set.union_empty]
      exact h.1 hlive'
    · by_cases hlive' : T.live w i = true
      · exact .inr (h.1 hlive').quiet
      · exact h.2 hlive'

theorem closed_of_moves {gained : Set Lock} (hclosed : discipline.Closed (T.held w i))
    (hmoves : Moves (T.live w i) (T.live w' i) (T.held w i) (T.held w' i) gained)
    (hgained : T.live w i → ∀ l ∈ gained, discipline.Admits (T.held w i) l) :
    discipline.Closed (T.held w' i) := by
  by_cases hlive : T.live w' i = true
  · obtain ⟨hlive',hheld⟩ := hmoves.stays hlive
    rw [hheld]
    intro l hl g hguard
    refine .inl ?_
    rcases hl with hl | hl
    · exact hclosed l hl g hguard
    · rcases hgained hlive' l hl with hin | ⟨g',hguard',hg'⟩ | ⟨hnone,_⟩
      · exact hclosed l hin g hguard
      · rw [hguard] at hguard'
        rw [Option.some.inj hguard']
        exact hg'
      · rw [hguard] at hnone
        cases hnone
  · rw [hmoves.ends hlive]
    exact fun l hl => hl.elim

theorem live_of_moves {gained : Set Lock} {l : Lock}
    (hmoves : Moves (T.live w i) (T.live w' i) (T.held w i) (T.held w' i) gained)
    (hl : T.holder w' l = some i) : T.live w' i = true := by
  by_contra hlive
  have hmem : l ∈ T.held w' i := hl
  rw [hmoves.ends hlive] at hmem
  exact hmem

theorem perform_sound {q : Q} {k : A q → Program Q A α} {c : C} {a : A q}
    (htidy : Tidy (T.holder w) (T.live w)) (hclosed : discipline.Closed (T.held w i))
    (h : T.ClientOk discipline w i (.running (.ask q k)))
    (hperform : m.perform w i q c = some (a,w')) :
    (∀ l, T.holder w' l = some i → T.live w' i = true) ∧ discipline.Closed (T.held w' i) ∧
      T.ClientOk discipline w' i (.running (k a)) := by
  cases hstarts : T.starts q with
  | false =>
    have hmoves : Moves (T.live w i) (T.live w' i) (T.held w i) (T.held w' i) (T.gained q a) :=
      T.own htidy hperform hstarts
    refine ⟨fun l => live_of_moves hmoves,
      closed_of_moves hclosed hmoves fun hlive l hl => (h.1 hlive).2.1 l hl.1,
      fun hlive => ?_,fun hlive => ?_⟩
    · obtain ⟨hlive',hheld⟩ := hmoves.stays hlive
      rw [hheld]
      exact (h.1 hlive').2.2 a
    · by_cases hlive' : T.live w i = true
      · exact .inr ((h.1 hlive').2.2 a).quiet
      · rcases h.2 hlive' with hstarting | hquiet
        · rw [hstarting.1] at hstarts
          cases hstarts
        · exact .inr (hquiet.2 a)
  | true =>
    have hidle : ¬ T.live w i := by
      intro hlive
      rw [(h.1 hlive).1] at hstarts
      cases hstarts
    have hrest := (h.2 hidle).resolve_right fun hquiet => by
      rw [show T.starts q = false from hquiet.1] at hstarts
      cases hstarts
    have hrest' := hrest.2 a
    rcases T.start htidy hperform hstarts with ⟨hgranted,hheld⟩ | ⟨hgranted,hmoves⟩
    · have hheld' : T.held w' i = ∅ := hheld
      rw [if_pos hgranted] at hrest'
      refine ⟨fun l hl => ?_,?_,fun _ => ?_,fun _ => .inr hrest'.quiet⟩
      · exact absurd (show l ∈ T.held w' i from hl) (hheld' ▸ Set.notMem_empty l)
      · rw [hheld']
        exact fun l hl => hl.elim
      · rwa [hheld']
    · rw [if_neg hgranted] at hrest'
      exact ⟨fun l => live_of_moves hmoves,closed_of_moves hclosed hmoves fun _ l hl => hl.elim,
        fun hlive => absurd (hmoves.stays hlive).1 hidle,fun _ => .inr hrest'⟩

variable (T discipline) in
/-- Only live owners hold locks, each a closed set of them, and every client is in order. -/
structure Sound (s : State I Q A W α) : Prop where
  tidy : Tidy (T.holder s.world) (T.live s.world)
  closed : ∀ i, discipline.Closed (T.held s.world i)
  client : ∀ i, T.ClientOk discipline s.world i (s.client i)

theorem Sound.ordered {s : State I Q A W α} (h : T.Sound discipline s) :
    (T.locks s).Ordered discipline := by
  refine ⟨h.closed,fun i l hrequested => ?_⟩
  have hclient := h.client i
  simp only [locks] at hrequested
  split at hrequested
  · rename_i q k hrunning
    split_ifs at hrequested with hlive
    rw [hrunning] at hclient
    exact (hclient.1 hlive).2.1 l hrequested
  · cases hrequested

variable [DecidableEq I]

theorem Sound.update {s : State I Q A W α} (htidy : Tidy (T.holder w) (T.live w))
    (hclosed : ∀ j, discipline.Closed (T.held w j))
    (hothers : ∀ j, j ≠ i → T.ClientOk discipline w j (s.client j)) {client : Client Q A α}
    (hclient : T.ClientOk discipline w i client) :
    T.Sound discipline ⟨w,Function.update s.client i client⟩ := by
  refine ⟨htidy,hclosed,fun j => ?_⟩
  by_cases hji : j = i
  · subst hji
    simp only [Function.update_self]
    exact hclient
  · simp only [Function.update_of_ne hji]
    exact hothers j hji

/-- A request that is performed leaves everything sound, whatever its client makes of the answer. -/
theorem Sound.perform {s : State I Q A W α} (h : T.Sound discipline s) {q : Q}
    {k : A q → Program Q A α} {c : C} {a : A q} (hrunning : s.client i = .running (.ask q k))
    (hperform : m.perform s.world i q c = some (a,w)) {client : Client Q A α}
    (hclient : T.ClientOk discipline w i (.running (k a)) → T.ClientOk discipline w i client) :
    T.Sound discipline ⟨w,Function.update s.client i client⟩ := by
  obtain ⟨hlive,hclosed,hrest⟩ :=
    perform_sound h.tidy (h.closed i) (hrunning ▸ h.client i) hperform
  refine .update (fun l j hl => ?_) (fun j => ?_)
    (fun j hji => (h.client j).stable (T.other h.tidy hperform hji)) (hclient hrest)
  · by_cases hji : j = i
    · exact hji ▸ hlive l (hji ▸ hl)
    · exact live_of_moves (T.other h.tidy hperform hji) hl
  · by_cases hji : j = i
    · rwa [hji]
    · exact closed_of_moves (h.closed j) (T.other h.tidy hperform hji) fun _ l hl => hl.elim

variable {programs : I → ℕ → Program Q A α} {initial : W → Prop}

theorem step_sound
    (hprograms : ∀ i n, T.Starting discipline (programs i n) ∨ T.Quiet (programs i n))
    {s t : State I Q A W α} {l : Label I C B} (h : T.Sound discipline s)
    (hstep : m.step programs s l = some t) : T.Sound discipline t := by
  cases Machine.step_cases hstep with
  | @start i n hwaiting =>
    have hidle : ¬ T.live s.world i := by
      have hclient := h.client i
      rwa [hwaiting] at hclient
    exact .update h.tidy h.closed (fun j _ => h.client j)
      ⟨fun hlive => absurd hlive hidle,fun _ => hprograms i n⟩
  | ask hrunning hperform => exact h.perform hrunning hperform id
  | orphan hrunning hperform => exact h.perform hrunning hperform fun _ => trivial
  | crash => exact .update h.tidy h.closed (fun j _ => h.client j) trivial
  | background hback =>
    have hmoves := T.background h.tidy hback
    exact ⟨fun l i => live_of_moves (hmoves i),
      fun i => closed_of_moves (h.closed i) (hmoves i) fun _ l hl => hl.elim,
      fun i => (h.client i).stable (hmoves i)⟩

theorem reachable_sound
    (hprograms : ∀ i n, T.Starting discipline (programs i n) ∨ T.Quiet (programs i n))
    (hinitial : ∀ w, initial w → ∀ i, ¬ T.live w i ∧ T.held w i = ∅) {s : State I Q A W α}
    (h : Reachable (m.system programs initial) s) : T.Sound discipline s := by
  refine ReachableBy.invariant (I := fun s : State I Q A W α => T.Sound discipline s) ?_ ?_ h
  · rintro s ⟨hworld,hwaiting⟩
    refine ⟨fun l i hl => ?_,fun i => ?_,fun i => ?_⟩
    · have hmem : l ∈ T.held s.world i := hl
      rw [(hinitial s.world hworld i).2] at hmem
      exact hmem.elim
    · rw [(hinitial s.world hworld i).2]
      exact fun l hl => hl.elim
    · rw [hwaiting i]
      exact (hinitial s.world hworld i).1
  · intro s l t hs _ hstep
    exact step_sound hprograms hs hstep

end LockTable

end Table

end LockOrder
end EventCore
