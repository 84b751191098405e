import EventCore.Exchanges
import EventCore.ProjectionDestination

/-! What one delivered position may do to the destination: how often its event is applied, what is
committed of it, and how each failure decision ends it. -/
namespace EventCore
namespace FailureDecisions
open Interaction ProjectionSource TransactionalRunner ProjectionDestination

variable {P Ev Er : Type}

abbrev Entry (P Ev Er : Type) : Type := Exchange (Request P Ev Er) (Answer P Ev Er) (World P)

/-- Others may do anything to the world but use the session of a run. -/
def Others (i : RunId) (w w' : World P) : Prop :=
  w'.session i = w.session i ∨ (w'.session i).lost = true

theorem Others.refl (i : RunId) (w : World P) : Others i w w := .inl rfl

theorem Others.trans {i : RunId} {u v w : World P} (huv : Others i u v) (hvw : Others i v w) :
    Others i u w := by
  rcases hvw with hsame | hlost
  · rcases huv with hsame' | hlost'
    · exact .inl (hsame.trans hsame')
    · exact .inr (hsame ▸ hlost')
  · exact .inr hlost

def Holds (i : RunId) (w : World P) (transaction : Option Transaction) : Prop :=
  (w.session i).lost = true ∨ (w.session i).transaction = transaction

theorem Holds.others {i : RunId} {w w' : World P} {transaction : Option Transaction}
    (h : Holds i w transaction) (hw : Others i w w') : Holds i w' transaction := by
  rcases hw with hsame | hlost
  · unfold Holds
    rwa [hsame]
  · exact .inl hlost

inductive Kind
  | applied
  | decided (attempt : ℕ) (decision : ProjectionFailureDecision)
  | undecodable
  | other
deriving DecidableEq

def kind : Entry P Ev Er → Kind
  | ⟨_,.apply _ _,_,_⟩ => .applied
  | ⟨_,.onError _ _ attempt,decision,_⟩ => .decided attempt decision
  | ⟨_,.decode _,.error _,_⟩ => .undecodable
  | _ => .other

def Kind.isApplied : Kind → Bool
  | .applied => true
  | _ => false

/-- The attempt that `on_error` was told. -/
def Kind.attempt : Kind → Option ℕ
  | .decided attempt _ => some attempt
  | _ => none

def Kind.Skips : Kind → Prop
  | .decided _ .skip => True
  | _ => False

/-- The position is given up: its event cannot be decoded, or the decision was to stop, fatal, or
to retry once more than is configured. -/
def Kind.GivesUp (maxRetries : ℕ) : Kind → Prop
  | .decided attempt .retry => maxRetries < attempt
  | .decided _ .stop | .decided _ .fatal | .undecodable => True
  | _ => False

def Unchanged (x : Entry P Ev Er) : Prop :=
  x.after.readModel = x.before.readModel ∧ x.after.progress = x.before.progress

section Position

variable (source : DeliverySourceId) (config : PostgresProjectionConfig) (position : ℕ) (i : RunId)

/-- The exchange commits these effects, and moves progress to the position. -/
def Commits (applications : List Application) (x : Entry P Ev Er) : Prop :=
  x.after.readModel = x.before.readModel ++ applications ∧
    x.after.progress = some ⟨source,config.selection,position⟩

def Effects (applications : List Application) : Prop :=
  applications = [] ∨ ∃ a : Application, applications = [a] ∧ a.succeeded = true ∧
    a.position = position ∧ a.run = i

def Begun (x : Entry P Ev Er) : Prop := ∃ w w', x = ⟨w,.db .begin,.ok (),w'⟩

/-- Progress was loaded and lies before the position, under the identity of the run. -/
def FoundPending (x : Entry P Ev Er) : Prop :=
  ∃ w w' progress, x = ⟨w,.db .loadProgress,.ok progress,w'⟩ ∧ ∀ p ∈ progress,
    p.sourceId = source ∧ p.selectionId = config.selection ∧ p.position < position

/-- A transaction was opened and the position found pending in it, with at most the decoding of
the event in between. -/
def Opened (l : List (Entry P Ev Er)) : Prop :=
  ∃ l₀ b g d, l = l₀ ++ b :: g :: d ∧ Begun b ∧ FoundPending source config position g ∧
    (d = [] ∨ ∃ w e a w', d = [⟨w,.decode e,a,w'⟩])

/-- Every attempt is made in a transaction that was opened for it and holds nothing yet. -/
def Fresh (l : List (Entry P Ev Er)) : Prop :=
  ∀ l' x, l' ++ [x] <+: l → (kind x).isApplied = true →
    Opened source config position l' ∧ Holds i x.before (some {})

def appliedIn (l : List (Entry P Ev Er)) : ℕ := l.countP fun x => (kind x).isApplied

def attemptsIn (l : List (Entry P Ev Er)) : List ℕ := l.filterMap fun x => (kind x).attempt

structure Obeys (l : List (Entry P Ev Er)) : Prop where
  bounded : appliedIn l ≤ config.maxRetries+1
  attempts : ∃ n, attemptsIn l = List.range' 1 n
  fresh : Fresh source config position i l
  committed : ∀ x ∈ l, Unchanged x ∨
    ∃ applications, Effects position i applications ∧ Commits source config position applications x
  skips : (∃ x ∈ l, (kind x).Skips) →
    ∀ x ∈ l, Unchanged x ∨ Commits source config position [] x
  givesUp : (∃ x ∈ l, (kind x).GivesUp config.maxRetries) → ∀ x ∈ l, Unchanged x

/-- A failure of the server, or progress that is not this run's. -/
def Infrastructure : TransactionalProjectionError Er → Prop
  | .leadershipLost | .progress _ | .commitIndeterminate _ => True
  | .sourceIdentityMismatch _ _ | .selectionIdentityMismatch _ _ => True
  | _ => False

/-- How the position ends after an exchange of this kind; a retry that is left promises nothing. -/
def Kind.EndsAs : Kind → Except (TransactionalProjectionError Er) EnvelopeResult → Prop
  | .decided attempt .retry,r => attempt ≤ config.maxRetries ∨
      (∃ e, r = .error (.retryExhausted position attempt e)) ∨ r = .error .leadershipLost
  | .decided _ .skip,r => r = .ok .skipped ∨ r = .ok .suppressed ∨
      ∃ e, r = .error e ∧ Infrastructure e
  | .decided _ .stop,r => r = .ok .stopped ∨ r = .error .leadershipLost
  | .decided _ .fatal,r => (∃ e, r = .error (.application position e)) ∨ r = .error .leadershipLost
  | .undecodable,r => r = .error (.decode position) ∨ r = .error .leadershipLost
  | _,_ => True

structure Ended (l : List (Entry P Ev Er))
    (r : Except (TransactionalProjectionError Er) EnvelopeResult) : Prop where
  decided : ∀ x ∈ l, (kind x).EndsAs config position r
  skipped : r = .ok .skipped → ∃ x ∈ l, Commits source config position [] x

end Position

section Perform

variable {selects : ProjectionSelectionId → PersistedEventEnvelope P → Bool} {w w' : World P}
  {i : RunId}

theorem execute_unchanged {q : DbRequest} {r : q.Reply} (hq : q ≠ .commit)
    (h : w.execute i q = some (r,w')) :
    w'.readModel = w.readModel ∧ w'.progress = w.progress := by
  cases q with
  | commit => exact absurd rfl hq
  | tryAdvisoryLock =>
    simp only [World.execute] at h
    cases hholder : w.holder with
    | none | some =>
      simp only [hholder] at h
      obtain rfl := (Prod.mk.inj (Option.some.inj h)).2
      exact ⟨rfl,rfl⟩
  | advisoryUnlock | close =>
    obtain rfl := (Prod.mk.inj (Option.some.inj h)).2
    exact ⟨rfl,rfl⟩
  | begin =>
    simp only [World.execute] at h
    cases htx : (w.session i).transaction with
    | none =>
      simp only [htx] at h
      obtain rfl := (Prod.mk.inj (Option.some.inj h)).2
      exact ⟨rfl,rfl⟩
    | some _ => simp [htx] at h
  | rollback | loadProgress | advanceProgress =>
    obtain ⟨_,_,heq⟩ := Option.map_eq_some_iff.mp h
    obtain rfl := (Prod.mk.inj heq).2
    exact ⟨rfl,rfl⟩

theorem performDb_cases {q : DbRequest} {c : Choice Ev Er} {a : Except Unit q.Reply}
    (h : w.performDb i q c = some (a,w')) :
    (a = .error () ∧ w' = w) ∨ (w.session i).lost = false ∧
      ∃ r, w.execute i q = some (r,w') ∧ (a = .ok r ∨ a = .error ()) := by
  cases c with
  | ok =>
    simp only [World.performDb] at h
    split_ifs at h with hlost
    obtain ⟨⟨r,u⟩,hr,heq⟩ := Option.map_eq_some_iff.mp h
    obtain ⟨rfl,rfl⟩ := Prod.mk.inj heq
    exact .inr ⟨by simpa using hlost,r,hr,.inl rfl⟩
  | unacknowledged =>
    simp only [World.performDb] at h
    split_ifs at h with hlost
    obtain ⟨⟨r,u⟩,hr,heq⟩ := Option.map_eq_some_iff.mp h
    obtain ⟨rfl,rfl⟩ := Prod.mk.inj heq
    exact .inr ⟨by simpa using hlost,r,hr,.inr rfl⟩
  | fail =>
    obtain ⟨rfl,rfl⟩ := Prod.mk.inj (Option.some.inj h)
    exact .inl ⟨rfl,rfl⟩
  | decoded | applied | decided | page | cancelled => cases h

end Perform

section Ghost

variable {source : DeliverySourceId} {config : PostgresProjectionConfig} {position : ℕ} {i : RunId}
  {l : List (Entry P Ev Er)} {a n : ℕ}

/-- Nothing is committed yet: `a` attempts were made, and `on_error` was asked about `n` of them. -/
structure Going (source : DeliverySourceId) (config : PostgresProjectionConfig) (position : ℕ)
    (i : RunId) (a n : ℕ) (l : List (Entry P Ev Er)) : Prop where
  applied : appliedIn l = a
  attempts : attemptsIn l = List.range' 1 n
  bounded : a ≤ config.maxRetries+1
  fresh : Fresh source config position i l
  unchanged : ∀ x ∈ l, Unchanged x

theorem Fresh.concat {x : Entry P Ev Er} (h : Fresh source config position i l)
    (hx : (kind x).isApplied = true → Opened source config position l ∧ Holds i x.before (some {})) :
    Fresh source config position i (l ++ [x]) := by
  intro l' y hl' hy
  rcases List.prefix_concat_iff.mp hl' with heq | hl'
  · obtain ⟨rfl,hlast⟩ := List.append_inj' heq rfl
    obtain rfl := List.singleton_inj.mp hlast
    exact hx hy
  · exact h l' y hl' hy

theorem appliedIn_append_other {l' : List (Entry P Ev Er)} (h : ∀ x ∈ l', kind x = .other) :
    appliedIn (l ++ l') = appliedIn l := by
  have hzero : l'.countP (fun x => (kind x).isApplied) = 0 :=
    List.countP_eq_zero.mpr fun x hx => by simp [h x hx,Kind.isApplied]
  rw [appliedIn,List.countP_append,hzero,Nat.add_zero,appliedIn]

theorem attemptsIn_append_other {l' : List (Entry P Ev Er)} (h : ∀ x ∈ l', kind x = .other) :
    attemptsIn (l ++ l') = attemptsIn l := by
  have hnil : l'.filterMap (fun x => (kind x).attempt) = [] :=
    List.filterMap_eq_nil_iff.mpr fun x hx => by simp [h x hx,Kind.attempt]
  rw [attemptsIn,List.filterMap_append,hnil,List.append_nil,attemptsIn]

theorem Fresh.append_other {l' : List (Entry P Ev Er)} (h : Fresh source config position i l)
    (hl' : ∀ x ∈ l', kind x = .other) : Fresh source config position i (l ++ l') := by
  induction l' generalizing l with
  | nil => rwa [List.append_nil]
  | cons x l' ih =>
    rw [List.append_cons]
    refine ih (h.concat fun hx => ?_) fun y hy => hl' y (List.mem_cons_of_mem _ hy)
    simp [hl' x List.mem_cons_self,Kind.isApplied] at hx

theorem Going.silent {x : Entry P Ev Er} (h : Going source config position i a n l)
    (happlied : (kind x).isApplied = false) (hattempt : (kind x).attempt = none)
    (hx : Unchanged x) : Going source config position i a n (l ++ [x]) where
  applied := by
    rw [← h.applied]
    simp [appliedIn,happlied]
  attempts := by
    rw [← h.attempts]
    simp [attemptsIn,hattempt]
  bounded := h.bounded
  fresh := h.fresh.concat fun hy => by simp [happlied] at hy
  unchanged := List.forall_mem_append.mpr ⟨h.unchanged,by simpa using hx⟩

theorem Going.other {x : Entry P Ev Er} (h : Going source config position i a n l)
    (hkind : kind x = .other) (hx : Unchanged x) :
    Going source config position i a n (l ++ [x]) :=
  h.silent (by rw [hkind]; rfl) (by rw [hkind]; rfl) hx

theorem Going.attempt {x : Entry P Ev Er} (h : Going source config position i a n l)
    (ha : a ≤ config.maxRetries) (hopened : Opened source config position l)
    (hkind : kind x = .applied) (hheld : Holds i x.before (some {})) (hx : Unchanged x) :
    Going source config position i (a+1) n (l ++ [x]) where
  applied := by
    rw [← h.applied]
    simp [appliedIn,hkind,Kind.isApplied]
  attempts := by
    rw [← h.attempts]
    simp [attemptsIn,hkind,Kind.attempt]
  bounded := Nat.succ_le_succ ha
  fresh := h.fresh.concat fun _ => ⟨hopened,hheld⟩
  unchanged := List.forall_mem_append.mpr ⟨h.unchanged,by simpa using hx⟩

/-- `on_error` is told the next attempt. -/
theorem Going.decide {x : Entry P Ev Er} {decision : ProjectionFailureDecision}
    (h : Going source config position i a n l) (hkind : kind x = .decided (n+1) decision)
    (hx : Unchanged x) : Going source config position i a (n+1) (l ++ [x]) where
  applied := by
    rw [← h.applied]
    simp [appliedIn,hkind,Kind.isApplied]
  attempts := by
    rw [attemptsIn,List.filterMap_append,← attemptsIn,h.attempts,List.range'_concat]
    simp [hkind,Kind.attempt,Nat.add_comm]
  bounded := h.bounded
  fresh := h.fresh.concat fun hy => by simp [hkind,Kind.isApplied] at hy
  unchanged := List.forall_mem_append.mpr ⟨h.unchanged,by simpa using hx⟩

theorem Going.obeys (h : Going source config position i a n l) :
    Obeys source config position i l where
  bounded := h.applied ▸ h.bounded
  attempts := ⟨n,h.attempts⟩
  fresh := h.fresh
  committed := fun x hx => .inl (h.unchanged x hx)
  skips := fun _ x hx => .inl (h.unchanged x hx)
  givesUp := fun _ => h.unchanged

/-- The exchanges after `l` are without consequence for the position. -/
def Adds (l l' : List (Entry P Ev Er)) : Prop :=
  ∃ l₁, l' = l ++ l₁ ∧ ∀ x ∈ l₁, kind x = .other ∧ Unchanged x

theorem Adds.refl (l : List (Entry P Ev Er)) : Adds l l := ⟨[],by simp,by simp⟩

theorem Adds.concat {l' : List (Entry P Ev Er)} {x : Entry P Ev Er} (h : Adds l l')
    (hkind : kind x = .other) (hx : Unchanged x) : Adds l (l' ++ [x]) := by
  obtain ⟨l₁,rfl,hother⟩ := h
  refine ⟨l₁ ++ [x],List.append_assoc .., List.forall_mem_append.mpr ⟨hother,?_⟩⟩
  simpa using ⟨hkind,hx⟩

theorem Going.adds {l' : List (Entry P Ev Er)} (h : Going source config position i a n l)
    (hadds : Adds l l') : Going source config position i a n l' := by
  obtain ⟨l₁,rfl,hother⟩ := hadds
  induction l₁ generalizing l with
  | nil => rwa [List.append_nil]
  | cons x l₁ ih =>
    rw [List.append_cons]
    obtain ⟨hkind,hx⟩ := hother x List.mem_cons_self
    exact ih (h.other hkind hx) fun y hy => hother y (List.mem_cons_of_mem _ hy)

/-- The exchanges after `l` commit at most these effects and settle nothing else. -/
def Settles (source : DeliverySourceId) (config : PostgresProjectionConfig) (position : ℕ)
    (applications : List Application) (l l' : List (Entry P Ev Er)) : Prop :=
  ∃ l₁, l' = l ++ l₁ ∧ ∀ x ∈ l₁, kind x = .other ∧
    (Unchanged x ∨ Commits source config position applications x)

/-- These effects may be committed: an attempt succeeded and nothing was decided that forbids it,
or there are none and the position is not given up. -/
def MayCommit (config : PostgresProjectionConfig) (position : ℕ) (i : RunId)
    (applications : List Application) (l : List (Entry P Ev Er)) : Prop :=
  Effects position i applications ∧ (∀ x ∈ l, ¬(kind x).GivesUp config.maxRetries) ∧
    (applications = [] ∨ ∀ x ∈ l, ¬(kind x).Skips)

theorem Settles.obeys {applications : List Application} {l' : List (Entry P Ev Er)}
    (h : Settles source config position applications l l')
    (hgoing : Going source config position i a n l)
    (hmay : MayCommit config position i applications l) : Obeys source config position i l' := by
  obtain ⟨l₁,rfl,hother⟩ := h
  obtain ⟨heffects,hgives,hskips⟩ := hmay
  have hkinds : ∀ x ∈ l₁, kind x = .other := fun x hx => (hother x hx).1
  have hsettled : ∀ x ∈ l ++ l₁, Unchanged x ∨ Commits source config position applications x :=
    List.forall_mem_append.mpr ⟨fun x hx => .inl (hgoing.unchanged x hx),fun x hx => (hother x hx).2⟩
  constructor
  · rw [appliedIn_append_other hkinds,hgoing.applied]
    exact hgoing.bounded
  · rw [attemptsIn_append_other hkinds]
    exact ⟨n,hgoing.attempts⟩
  · exact hgoing.fresh.append_other hkinds
  · exact fun x hx => (hsettled x hx).imp_right fun hc => ⟨_,heffects,hc⟩
  · rintro ⟨y,hy,hskip⟩
    rcases hskips with rfl | hnone
    · exact hsettled
    · rcases List.mem_append.mp hy with hy | hy
      · exact absurd hskip (hnone y hy)
      · simp [hkinds y hy,Kind.Skips] at hskip
  · rintro ⟨y,hy,hgive⟩
    rcases List.mem_append.mp hy with hy | hy
    · exact absurd hgive (hgives y hy)
    · simp [hkinds y hy,Kind.GivesUp] at hgive

end Ghost

end FailureDecisions
end EventCore
