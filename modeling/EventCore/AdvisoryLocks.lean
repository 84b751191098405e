import EventCore.AdvisoryKeys
import EventCore.Coordination

/-! The PostgreSQL coordinator: a guard owns the connection whose session took the advisory lock,
and gives the lock back on that connection, at once or from a spawned task. -/
namespace EventCore
namespace AdvisoryLocks

open AdvisoryKeys Coordination

structure CoordinationGuard where
  lockKey : Int64
  session : ℕ
  deriving DecidableEq

/-- Where the connection of a session is: in the pool, with a guard, with a spawned task that
unlocks, or closed or with someone else. -/
inductive Place
  | idle
  | owned
  | unlocking (lockKey : Int64)
  | away
  deriving DecidableEq

/-- The server's advisory locks, and the connections. A session may take a lock that it holds
again; a lock that was taken in a transaction is held until that ends. -/
structure Postgres where
  holds : ℕ → Int64 → ℕ
  transaction : ℕ → Int64 → Bool
  place : ℕ → Place
  next : ℕ

/-- What the pool, the server, the runtime and other users of the database do. -/
inductive Choice
  | pooled (session : ℕ)
  | connected
  | failed
  /-- The runtime has one thread, so that a spawned task will unlock. -/
  | spawned
  | unlockFailed
  | sessionEnded
  | unlocks (session : ℕ) (success : Bool)
  | lose (session : ℕ)
  /-- An acquisition was given up after the server had granted it. -/
  | leak (session : ℕ) (key : Int64)
  /-- `pg_advisory_xact_lock` of an append. -/
  | lockTransaction (session : ℕ) (key : Int64)
  | endTransaction (session : ℕ)

namespace Postgres

def empty : Postgres := ⟨fun _ _ => 0,fun _ _ => false,fun _ => .away,0⟩

def blocked (c : Postgres) (s : ℕ) (key : Int64) : Bool :=
  (List.range c.next).any fun t => t ≠ s && (0 < c.holds t key || c.transaction t key)

def setHolds (c : Postgres) (s : ℕ) (key : Int64) (n : ℕ) : Postgres :=
  { c with holds := Function.update c.holds s (Function.update (c.holds s) key n) }

def move (c : Postgres) (s : ℕ) (place : Place) : Postgres :=
  { c with place := Function.update c.place s place }

/-- `pg_try_advisory_lock` on a connection taken from the pool; it goes back when it is refused. -/
def tryLock (c : Postgres) (s : ℕ) (key : Int64) : Option CoordinationGuard × Postgres :=
  if c.blocked s key then (none,c.move s .idle)
  else (some ⟨key,s⟩,(c.setHolds s key (c.holds s key+1)).move s .owned)

/-- `pg_advisory_unlock` -/
def unlock (c : Postgres) (s : ℕ) (key : Int64) : Postgres := c.setHolds s key (c.holds s key-1)

def endSession (c : Postgres) (s : ℕ) : Postgres :=
  { c with
    holds := Function.update c.holds s fun _ => 0
    transaction := Function.update c.transaction s fun _ => false
    place := Function.update c.place s .away }

def tryAcquire (c : Postgres) (subscriptionName : String) (choice : Choice) :
    Option CoordinationGuard × Postgres :=
  match choice with
  | .pooled s =>
    if c.place s = .idle then c.tryLock s (advisoryLockKey subscriptionName) else (none,c)
  | .connected => { c with next := c.next+1 }.tryLock c.next (advisoryLockKey subscriptionName)
  | _ => (none,c)

def drop (c : Postgres) (guard : CoordinationGuard) (choice : Choice) : Postgres :=
  if c.place guard.session = .owned then
    match choice with
    | .spawned => c.move guard.session (.unlocking guard.lockKey)
    | .unlockFailed => c.move guard.session .idle
    | .sessionEnded => c.endSession guard.session
    | _ => (c.unlock guard.session guard.lockKey).move guard.session .idle
  else c

def other (c : Postgres) (choice : Choice) : Postgres :=
  match choice with
  | .unlocks s success =>
    match c.place s with
    | .unlocking key => (if success then c.unlock s key else c).move s .idle
    | _ => c
  | .lose s => c.endSession s
  | .leak s key =>
    if c.place s = .idle ∧ c.blocked s key = false then c.setHolds s key (c.holds s key+1) else c
  | .lockTransaction s key =>
    if s < c.next ∧ c.place s ≠ .owned ∧ c.blocked s key = false then
      { c with
        transaction := Function.update c.transaction s
          (Function.update (c.transaction s) key true) }
    else c
  | .endTransaction s =>
    { c with transaction := Function.update c.transaction s fun _ => false }
  | _ => c

end Postgres

def postgresCoordinator : Coordinator Postgres String CoordinationGuard Choice where
  tryAcquire := Postgres.tryAcquire
  drop := Postgres.drop
  other := Postgres.other

def Keeps (c : Postgres) : Choice → Prop
  | .lose s => c.place s ≠ .owned
  | _ => True

/-- The session holds the lock, for itself or for a transaction. -/
def Postgres.Holding (c : Postgres) (s : ℕ) (key : Int64) : Prop :=
  0 < c.holds s key ∨ c.transaction s key = true

section Guards

variable {Client : Type}

/-- A lock is one session's, and each guard's session is its own and holds the guard's lock. -/
structure Rep (c : Postgres) (leaders : Leaders Client String CoordinationGuard) : Prop where
  exclusive : ∀ {key s t}, c.Holding s key → c.Holding t key → s = t
  known : ∀ {s key}, c.Holding s key → s < c.next
  led : ∀ {i name g}, leaders i = some (name,g) → g.lockKey = advisoryLockKey name ∧
    0 < c.holds g.session g.lockKey ∧ c.place g.session = .owned
  apart : ∀ {i j name name' g g'}, leaders i = some (name,g) → leaders j = some (name',g') →
    g.session = g'.session → i = j
  pooled : ∀ {s}, c.place s ≠ .away → s < c.next

variable {c : Postgres} {leaders : Leaders Client String CoordinationGuard}

theorem rep_empty : Rep .empty fun _ : Client => none where
  exclusive h := by simp [Postgres.Holding,Postgres.empty] at h
  known h := by simp [Postgres.Holding,Postgres.empty] at h
  led h := by cases h
  apart h := by cases h
  pooled h := absurd rfl h

theorem Rep.blocked_iff (h : Rep c leaders) {s : ℕ} {key : Int64} :
    c.blocked s key = true ↔ ∃ t, t ≠ s ∧ c.Holding t key := by
  simp only [Postgres.blocked,List.any_eq_true,List.mem_range,Bool.and_eq_true,Bool.or_eq_true,
    decide_eq_true_eq]
  constructor
  · rintro ⟨t,-,hne,hholding⟩
    exact ⟨t,hne,hholding⟩
  · rintro ⟨t,hne,hholding⟩
    exact ⟨t,h.known hholding,hne,hholding⟩

theorem Rep.not_blocked (h : Rep c leaders) {s : ℕ} {key : Int64}
    (hfree : c.blocked s key = false) {t : ℕ} (hholding : c.Holding t key) : t = s := by
  by_contra hne
  rw [← Bool.not_eq_true,h.blocked_iff] at hfree
  exact hfree ⟨t,hne,hholding⟩

/-- What leaves the guards' sessions alone, and lets at most one session take locks, none of them
held by another one, keeps everything. -/
theorem Rep.keeps (h : Rep c leaders) {c' : Postgres}
    {leaders' : Leaders Client String CoordinationGuard} (s₀ : ℕ) (hnext : c.next ≤ c'.next)
    (hholding : ∀ s key, c'.Holding s key → c.Holding s key ∨
      s = s₀ ∧ s < c'.next ∧ ∀ t, c.Holding t key → t = s)
    (hplace : ∀ s, c'.place s ≠ .away → s < c'.next)
    (hleaders : ∀ i name g, leaders' i = some (name,g) → leaders i = some (name,g) ∧
      0 < c'.holds g.session g.lockKey ∧ c'.place g.session = .owned) : Rep c' leaders' where
  exclusive {key s t} hs ht := by
    rcases hholding s key hs with hs | ⟨rfl,-,hs⟩
    · rcases hholding t key ht with ht | ⟨-,-,ht⟩
      · exact h.exclusive hs ht
      · exact ht s hs
    · rcases hholding t key ht with ht | ⟨rfl,-,-⟩
      · exact (hs t ht).symm
      · rfl
  known {s key} hs := by
    rcases hholding s key hs with hs | ⟨-,hs,-⟩
    · exact (h.known hs).trans_le hnext
    · exact hs
  led {i name g} hi := ⟨(h.led (hleaders i name g hi).1).1,(hleaders i name g hi).2⟩
  apart hi hj heq := h.apart (hleaders _ _ _ hi).1 (hleaders _ _ _ hj).1 heq
  pooled {s} hs := hplace s hs

theorem holding_setHolds (c : Postgres) (s t : ℕ) (key key' : Int64) (n : ℕ) :
    (c.setHolds s key n).Holding t key' ↔
      (if t = s ∧ key' = key then 0 < n ∨ c.transaction t key' = true else c.Holding t key') := by
  by_cases ht : t = s
  · subst ht
    by_cases hkey : key' = key
    · subst hkey
      simp [Postgres.Holding,Postgres.setHolds]
    · simp [Postgres.Holding,Postgres.setHolds,hkey]
  · simp [Postgres.Holding,Postgres.setHolds,ht]

theorem holds_setHolds_of_ne (c : Postgres) {s t : ℕ} (hst : t ≠ s) (key : Int64) (n : ℕ) :
    (c.setHolds s key n).holds t = c.holds t := by
  simp [Postgres.setHolds,hst]

theorem place_move_of_ne (c : Postgres) {s t : ℕ} (hst : t ≠ s) (place : Place) :
    (c.move s place).place t = c.place t :=
  Function.update_of_ne hst ..

theorem Rep.moves (h : Rep c leaders) {s : ℕ} (hs : s < c.next) (howned : c.place s ≠ .owned)
    (place : Place) : Rep (c.move s place) leaders := by
  refine h.keeps s le_rfl (fun t key ht => .inl ht) (fun t ht => ?_) fun i name g hi => ?_
  · by_cases hts : t = s
    · subst hts
      exact hs
    · exact h.pooled (place_move_of_ne c hts place ▸ ht)
  · obtain ⟨-,hholds,hplace⟩ := h.led hi
    have hne : g.session ≠ s := fun heq => howned (heq ▸ hplace)
    exact ⟨hi,hholds,(place_move_of_ne c hne place).trans hplace⟩

theorem Rep.setHolds (h : Rep c leaders) {s : ℕ} (hs : s < c.next) (howned : c.place s ≠ .owned)
    {key : Int64} {n : ℕ} (hfree : n = 0 ∨ 0 < c.holds s key ∨ c.blocked s key = false) :
    Rep (c.setHolds s key n) leaders := by
  refine h.keeps s le_rfl (fun t key' ht => ?_) (fun t ht => h.pooled ht) fun i name g hi => ?_
  · rw [holding_setHolds] at ht
    split_ifs at ht with heq
    · obtain ⟨rfl,rfl⟩ := heq
      rcases ht with hn | ht
      · rcases hfree with rfl | hheld | hfree
        · exact absurd hn (Nat.lt_irrefl 0)
        · exact .inl (.inl hheld)
        · exact .inr ⟨rfl,hs,fun t' ht' => h.not_blocked hfree ht'⟩
      · exact .inl (.inr ht)
    · exact .inl ht
  · obtain ⟨-,hholds,hplace⟩ := h.led hi
    have hne : g.session ≠ s := fun heq => howned (heq ▸ hplace)
    exact ⟨hi,(holds_setHolds_of_ne c hne key n) ▸ hholds,hplace⟩

theorem Rep.endSession (h : Rep c leaders) {s : ℕ}
    (hfree : ∀ i name g, leaders i = some (name,g) → g.session ≠ s) :
    Rep (c.endSession s) leaders := by
  refine h.keeps s le_rfl (fun t key ht => .inl ?_) (fun t ht => ?_) fun i name g hi => ?_
  · by_cases hts : t = s
    · subst hts
      simp [Postgres.Holding,Postgres.endSession] at ht
    · simpa [Postgres.Holding,Postgres.endSession,hts] using ht
  · by_cases hts : t = s
    · subst hts
      simp [Postgres.endSession] at ht
    · exact h.pooled (by simpa [Postgres.endSession,hts] using ht)
  · obtain ⟨-,hholds,hplace⟩ := h.led hi
    have hne := hfree i name g hi
    refine ⟨hi,?_,?_⟩
    · simpa [Postgres.endSession,hne] using hholds
    · simpa [Postgres.endSession,hne] using hplace

theorem Rep.restrict (h : Rep c leaders) {leaders' : Leaders Client String CoordinationGuard}
    (hsub : ∀ i lead, leaders' i = some lead → leaders i = some lead) : Rep c leaders' :=
  h.keeps 0 le_rfl (fun _ _ ht => .inl ht) (fun _ ht => h.pooled ht) fun i _ _ hi =>
    ⟨hsub i _ hi,(h.led (hsub i _ hi)).2⟩

theorem Rep.opens (h : Rep c leaders) : Rep { c with next := c.next+1 } leaders :=
  h.keeps 0 (Nat.le_succ _) (fun _ _ ht => .inl ht) (fun _ ht => (h.pooled ht).trans_le (Nat.le_succ _))
    fun _ _ _ hi => ⟨hi,(h.led hi).2⟩

variable [DecidableEq Client]

theorem Rep.acquired (h : Rep c leaders) {i : Client} {name : String} {s : ℕ} (hs : s < c.next)
    (howned : c.place s ≠ .owned) (hfree : c.blocked s (advisoryLockKey name) = false) :
    Rep ((c.setHolds s (advisoryLockKey name) (c.holds s (advisoryLockKey name)+1)).move s .owned)
      (Function.update leaders i (some (name,⟨advisoryLockKey name,s⟩))) := by
  have htaken := h.setHolds (n := c.holds s (advisoryLockKey name)+1) hs howned (.inr (.inr hfree))
  have hmoved : Rep _ leaders := htaken.moves (s := s) hs howned .owned
  have hnew : ∀ j name' g, leaders j = some (name',g) → g.session ≠ s :=
    fun j name' g hj heq => howned (heq ▸ (h.led hj).2.2)
  refine ⟨hmoved.exclusive,hmoved.known,fun {j name' g} hj => ?_,fun {j j' n n' g g'} hj hj' heq => ?_,
    hmoved.pooled⟩
  · by_cases hji : j = i
    · subst hji
      rw [Function.update_self] at hj
      cases hj
      exact ⟨rfl,by simp [Postgres.move,Postgres.setHolds],by simp [Postgres.move]⟩
    · rw [Function.update_of_ne hji] at hj
      exact hmoved.led hj
  · by_cases hji : j = i
    · by_cases hji' : j' = i
      · rw [hji,hji']
      · subst hji
        rw [Function.update_self] at hj
        rw [Function.update_of_ne hji'] at hj'
        cases hj
        exact absurd heq.symm (hnew j' n' g' hj')
    · by_cases hji' : j' = i
      · subst hji'
        rw [Function.update_self] at hj'
        rw [Function.update_of_ne hji] at hj
        cases hj'
        exact absurd heq (hnew j n g hj)
      · rw [Function.update_of_ne hji] at hj
        rw [Function.update_of_ne hji'] at hj'
        exact h.apart hj hj' heq

theorem Rep.forget (h : Rep c leaders) {i : Client} {name : String} {g : CoordinationGuard}
    (hi : leaders i = some (name,g)) (place : Place) :
    Rep (c.move g.session place) (Function.update leaders i none) := by
  refine h.keeps g.session le_rfl (fun t key ht => .inl ht) (fun t ht => ?_)
    fun j name' g' hj => ?_
  · by_cases hts : t = g.session
    · subst hts
      exact h.known (.inl (h.led hi).2.1)
    · exact h.pooled (place_move_of_ne c hts place ▸ ht)
  · by_cases hji : j = i
    · subst hji
      simp at hj
    · rw [Function.update_of_ne hji] at hj
      obtain ⟨-,hholds,howned⟩ := h.led hj
      have hne : g'.session ≠ g.session := fun heq => hji (h.apart hj hi heq)
      exact ⟨hj,hholds,(place_move_of_ne c hne place).trans howned⟩

/-- The outcome of asking: a guard that any client may have, or nothing. -/
def Outcome (leaders : Leaders Client String CoordinationGuard) (name : String)
    (r : Option CoordinationGuard × Postgres) : Prop :=
  match r.1 with
  | some g => ∀ i, Rep r.2 (Function.update leaders i (some (name,g)))
  | none => Rep r.2 leaders

theorem Rep.tryLock (h : Rep c leaders) {name : String} {s : ℕ} (hs : s < c.next)
    (howned : c.place s ≠ .owned) :
    Outcome leaders name (c.tryLock s (advisoryLockKey name)) := by
  unfold Postgres.tryLock
  split_ifs with hblocked
  · exact h.moves hs howned .idle
  · exact fun i => h.acquired hs howned (Bool.eq_false_iff.mpr hblocked)

theorem Rep.tryAcquire (h : Rep c leaders) (name : String) (choice : Choice) :
    Outcome leaders name (c.tryAcquire name choice) := by
  cases choice with
  | pooled s =>
    simp only [Postgres.tryAcquire]
    split_ifs with hidle
    · exact h.tryLock (h.pooled (by rw [hidle]; decide)) (by rw [hidle]; decide)
    · exact h
  | connected =>
    refine h.opens.tryLock (Nat.lt_succ_self _) fun howned => ?_
    exact absurd (h.pooled (s := c.next) (by rw [show c.place c.next = .owned from howned]; decide))
      (Nat.lt_irrefl _)
  | _ => exact h

theorem Rep.dropped (h : Rep c leaders) {i : Client} {name : String} {g : CoordinationGuard}
    (hi : leaders i = some (name,g)) (choice : Choice) :
    Rep (c.drop g choice) (Function.update leaders i none) := by
  have hs : g.session < c.next := h.known (.inl (h.led hi).2.1)
  have hunlocked : Rep ((c.unlock g.session g.lockKey).move g.session .idle)
      (Function.update leaders i none) := by
    refine (h.forget hi .idle).setHolds (s := g.session) hs (by simp [Postgres.move]) ?_
    exact .inr (.inl (h.led hi).2.1)
  unfold Postgres.drop
  rw [if_pos (h.led hi).2.2]
  cases choice with
  | spawned => exact h.forget hi (.unlocking g.lockKey)
  | unlockFailed => exact h.forget hi .idle
  | sessionEnded =>
    have hforgot := h.forget hi .away
    have hfree : ∀ j name' g', Function.update leaders i none j = some (name',g') →
        g'.session ≠ g.session := by
      intro j name' g' hj heq
      have hplace := (hforgot.led hj).2.2
      rw [heq] at hplace
      simp [Postgres.move] at hplace
    have hended := hforgot.endSession hfree
    have hsame : (c.move g.session .away).endSession g.session = c.endSession g.session := by
      simp [Postgres.move,Postgres.endSession]
    rwa [hsame] at hended
  | _ => exact hunlocked

omit [DecidableEq Client] in
theorem Rep.other (h : Rep c leaders) {choice : Choice} (hkeeps : Keeps c choice) :
    Rep (c.other choice) leaders := by
  cases choice with
  | unlocks s success =>
    cases hplace : c.place s with
    | unlocking key =>
      have hs : s < c.next := h.pooled (by rw [hplace]; simp)
      have howned : c.place s ≠ .owned := by rw [hplace]; simp
      simp only [Postgres.other,hplace]
      cases success with
      | false => exact h.moves hs howned .idle
      | true =>
        refine Rep.moves (s := s) (h.setHolds hs howned ?_) hs howned .idle
        rcases Nat.eq_zero_or_pos (c.holds s key) with hzero | hpos
        · exact .inl (by rw [hzero])
        · exact .inr (.inl hpos)
    | idle | owned | away => simpa only [Postgres.other,hplace] using h
  | lose s => exact h.endSession fun i name g hi heq => hkeeps (heq ▸ (h.led hi).2.2)
  | leak s key =>
    simp only [Postgres.other]
    split_ifs with hfree
    · exact h.setHolds (h.pooled (by rw [hfree.1]; decide)) (by rw [hfree.1]; decide)
        (.inr (.inr hfree.2))
    · exact h
  | lockTransaction s key =>
    simp only [Postgres.other]
    split_ifs with hfree
    · obtain ⟨hs,howned,hfree⟩ := hfree
      refine h.keeps s le_rfl (fun t key' ht => ?_) (fun t ht => h.pooled ht)
        fun i name g hi => ⟨hi,(h.led hi).2⟩
      by_cases heq : t = s ∧ key' = key
      · obtain ⟨rfl,rfl⟩ := heq
        exact .inr ⟨rfl,hs,fun t' ht' => h.not_blocked hfree ht'⟩
      · refine .inl (ht.imp_right fun ht => ?_)
        by_cases hts : t = s
        · subst hts
          have hkey : key' ≠ key := fun hkey => heq ⟨rfl,hkey⟩
          simpa [hkey] using ht
        · simpa [hts] using ht
    · exact h
  | endTransaction s =>
    refine h.keeps s le_rfl (fun t key ht => .inl (ht.imp_right fun ht => ?_))
      (fun t ht => h.pooled ht) fun i name g hi => ⟨hi,(h.led hi).2⟩
    by_cases hts : t = s
    · subst hts
      simp [Postgres.other] at ht
    · simpa [Postgres.other,hts] using ht
  | _ => exact h

theorem postgres_exclusive :
    Exclusive postgresCoordinator Keeps (Rep : _ → Leaders Client String CoordinationGuard → Prop)
    where
  alone {c leaders i j name g g'} h hi hj := by
    obtain ⟨hkey,hholds,-⟩ := h.led hi
    obtain ⟨hkey',hholds',-⟩ := h.led hj
    have hfirst : c.Holding g.session (advisoryLockKey name) := .inl (hkey ▸ hholds)
    have hsecond : c.Holding g'.session (advisoryLockKey name) := .inl (hkey' ▸ hholds')
    exact h.apart hi hj (h.exclusive hfirst hsecond)
  acquired {c c' leaders i name choice g} h _ hacquire := by
    have houtcome := h.tryAcquire name choice
    rw [show c.tryAcquire name choice = (some g,c') from hacquire] at houtcome
    exact houtcome i
  refused {c c' leaders name choice} h hrefused := by
    have houtcome := h.tryAcquire name choice
    rw [show c.tryAcquire name choice = (none,c') from hrefused] at houtcome
    exact houtcome
  dropped h hi := h.dropped hi _
  other h hkeeps := h.other hkeeps

def opened (c : Postgres) (leaders : Leaders Client String CoordinationGuard) :
    Leaders Client String CoordinationGuard := fun i =>
  (leaders i).filter fun lead => c.place lead.2.session = .owned

omit [DecidableEq Client] in
theorem opened_eq_some {i : Client} {name : String} {g : CoordinationGuard} :
    opened c leaders i = some (name,g) ↔
      leaders i = some (name,g) ∧ c.place g.session = .owned := by
  simp [opened,Option.filter_eq_some_iff]

/-- A guard's session is its own until it is lost, and then it does not come back. -/
def Settled (c : Postgres) (s : ℕ) : Prop := c.place s = .owned ∨ c.place s = .away ∧ s < c.next

structure Lossy (c : Postgres) (leaders : Leaders Client String CoordinationGuard) : Prop where
  rep : Rep c (opened c leaders)
  settled : ∀ i name g, leaders i = some (name,g) → Settled c g.session

omit [DecidableEq Client] in
theorem opened_congr {c' : Postgres}
    (h : ∀ i name g, leaders i = some (name,g) → c'.place g.session = c.place g.session) :
    opened c' leaders = opened c leaders := by
  funext i
  cases hi : leaders i with
  | none => simp [opened,hi]
  | some lead =>
    have hlead := h i lead.1 lead.2 hi
    simp [opened,hi,Option.filter,hlead]

theorem tryLock_place {s t : ℕ} (hst : s ≠ t) (key : Int64) :
    (c.tryLock t key).2.place s = c.place s ∧ (c.tryLock t key).2.next = c.next := by
  unfold Postgres.tryLock
  split_ifs
  · exact ⟨place_move_of_ne c hst _,rfl⟩
  · exact ⟨place_move_of_ne _ hst _,rfl⟩

theorem tryAcquire_place {s : ℕ} (h : Settled c s) (hs : s < c.next) (name : String)
    (choice : Choice) : (c.tryAcquire name choice).2.place s = c.place s ∧
      c.next ≤ (c.tryAcquire name choice).2.next := by
  cases choice with
  | pooled t =>
    simp only [Postgres.tryAcquire]
    split_ifs with hidle
    · have hst : s ≠ t := by
        rintro rfl
        rcases h with hplace | ⟨hplace,-⟩ <;> simp [hidle] at hplace
      obtain ⟨hplace,hnext⟩ := tryLock_place (c := c) hst (advisoryLockKey name)
      exact ⟨hplace,hnext.ge⟩
    · exact ⟨rfl,le_rfl⟩
  | connected =>
    obtain ⟨hplace,hnext⟩ :=
      tryLock_place (c := { c with next := c.next+1 }) hs.ne (advisoryLockKey name)
    exact ⟨hplace,(Nat.le_succ _).trans hnext.ge⟩
  | _ => exact ⟨rfl,le_rfl⟩

theorem other_place {s : ℕ} (h : Settled c s) {choice : Choice} (hlose : choice ≠ .lose s) :
    (c.other choice).place s = c.place s ∧ (c.other choice).next = c.next := by
  cases choice with
  | unlocks t success =>
    cases hplace : c.place t with
    | unlocking key =>
      have hst : s ≠ t := by
        rintro rfl
        rcases h with hs | ⟨hs,-⟩ <;> simp [hplace] at hs
      simp only [Postgres.other,hplace]
      refine ⟨(place_move_of_ne _ hst .idle).trans ?_,?_⟩ <;> cases success <;> rfl
    | idle | owned | away =>
      have hsame : c.other (.unlocks t success) = c := by simp only [Postgres.other,hplace]
      rw [hsame]
      exact ⟨rfl,rfl⟩
  | lose t =>
    have hst : s ≠ t := by
      rintro rfl
      exact hlose rfl
    exact ⟨Function.update_of_ne hst ..,rfl⟩
  | leak t key =>
    simp only [Postgres.other]
    split_ifs <;> exact ⟨rfl,rfl⟩
  | lockTransaction t key =>
    simp only [Postgres.other]
    split_ifs <;> exact ⟨rfl,rfl⟩
  | _ => exact ⟨rfl,rfl⟩

omit [DecidableEq Client] in
theorem Lossy.known (h : Lossy c leaders) {i : Client} {name : String} {g : CoordinationGuard}
    (hi : leaders i = some (name,g)) : g.session < c.next := by
  rcases h.settled i name g hi with howned | ⟨-,hlt⟩
  · exact h.rep.pooled (by rw [howned]; decide)
  · exact hlt

omit [DecidableEq Client] in
theorem Settled.mono {c' : Postgres} {s : ℕ} (h : Settled c s) (hplace : c'.place s = c.place s)
    (hnext : c.next ≤ c'.next) : Settled c' s :=
  h.imp (hplace ▸ ·) fun haway => ⟨hplace ▸ haway.1,haway.2.trans_le hnext⟩

theorem opened_update (i : Client) (lead : Option (String × CoordinationGuard)) :
    opened c (Function.update leaders i lead) = Function.update (opened c leaders) i
      (lead.filter fun lead => c.place lead.2.session = .owned) := by
  funext j
  by_cases hji : j = i
  · subst hji
    simp [opened]
  · simp [opened,hji]

theorem Lossy.acquires (h : Lossy c leaders) {i : Client} (hi : leaders i = none) (name : String)
    (choice : Choice) : Lossy (c.tryAcquire name choice).2
      (Function.update leaders i ((c.tryAcquire name choice).1.map (name,·))) := by
  have hplace := fun j name' g (hj : leaders j = some (name',g)) =>
    tryAcquire_place (h.settled j name' g hj) (h.known hj) name choice
  have hopened : opened (c.tryAcquire name choice).2 leaders = opened c leaders :=
    opened_congr fun j name' g hj => (hplace j name' g hj).1
  have hsettled : ∀ j name' g, leaders j = some (name',g) →
      Settled (c.tryAcquire name choice).2 g.session := by
    intro j name' g hj
    obtain ⟨hsame,hnext⟩ := hplace j name' g hj
    exact (h.settled j name' g hj).mono hsame hnext
  have houtcome := h.rep.tryAcquire name choice
  unfold Outcome at houtcome
  cases hguard : (c.tryAcquire name choice).1 with
  | none =>
    rw [hguard] at houtcome
    have hsame : Function.update leaders i (Option.map (name,·) (none : Option CoordinationGuard)) =
        leaders := by
      rw [← show leaders i = Option.map (name,·) (none : Option CoordinationGuard) from hi,
        Function.update_eq_self]
    rw [hsame]
    exact ⟨hopened ▸ houtcome,hsettled⟩
  | some g =>
    rw [hguard] at houtcome
    have hg : (c.tryAcquire name choice).2.place g.session = .owned :=
      ((houtcome i).led (Function.update_self ..)).2.2
    refine ⟨?_,fun j name' g' hj => ?_⟩
    · rw [opened_update,hopened,Option.map_some,Option.filter_some,if_pos (by simpa using hg)]
      exact houtcome i
    · by_cases hji : j = i
      · subst hji
        rw [Function.update_self] at hj
        cases hj
        exact .inl hg
      · rw [Function.update_of_ne hji] at hj
        exact hsettled j name' g' hj

theorem Lossy.drops (h : Lossy c leaders) {i : Client} {name : String} {g : CoordinationGuard}
    (hi : leaders i = some (name,g)) (choice : Choice) :
    Lossy (c.drop g choice) (Function.update leaders i none) := by
  have hopened : opened c (Function.update leaders i none) =
      Function.update (opened c leaders) i none := opened_update i none
  by_cases howned : c.place g.session = .owned
  · have hlead := opened_eq_some.mpr ⟨hi,howned⟩
    have hother : ∀ j name' g', Function.update leaders i none j = some (name',g') →
        Settled c g'.session ∧ (c.drop g choice).place g'.session = c.place g'.session ∧
          (c.drop g choice).next = c.next := by
      intro j name' g' hj
      have hji : j ≠ i := by
        rintro rfl
        simp at hj
      rw [Function.update_of_ne hji] at hj
      have hsettled := h.settled j name' g' hj
      have hne : g'.session ≠ g.session := by
        intro heq
        have howned' : c.place g'.session = .owned := heq ▸ howned
        exact hji (h.rep.apart (opened_eq_some.mpr ⟨hj,howned'⟩) hlead heq)
      refine ⟨hsettled,?_⟩
      unfold Postgres.drop
      rw [if_pos howned]
      cases choice <;> exact ⟨Function.update_of_ne hne ..,rfl⟩
    refine ⟨?_,fun j name' g' hj => ?_⟩
    · rw [opened_congr fun j name' g' hj => (hother j name' g' hj).2.1,hopened]
      exact h.rep.dropped hlead choice
    · obtain ⟨hsettled,hplace,hnext⟩ := hother j name' g' hj
      exact hsettled.mono hplace hnext.ge
  · unfold Postgres.drop
    rw [if_neg howned]
    have hlost : opened c leaders i = none := by
      simp [opened,hi,howned]
    refine ⟨?_,fun j name' g' hj => ?_⟩
    · rw [hopened,← hlost,Function.update_eq_self]
      exact h.rep
    · by_cases hji : j = i
      · subst hji
        simp at hj
      · rw [Function.update_of_ne hji] at hj
        exact h.settled j name' g' hj

omit [DecidableEq Client] in
theorem Lossy.loses (h : Lossy c leaders) (s : ℕ) : Lossy (c.endSession s) leaders := by
  have hsession : ∀ i name g, opened (c.endSession s) leaders i = some (name,g) →
      g.session ≠ s ∧ opened c leaders i = some (name,g) := by
    intro i name g hi
    obtain ⟨hlead,hplace⟩ := opened_eq_some.mp hi
    have hne : g.session ≠ s := by
      intro heq
      rw [heq] at hplace
      simp [Postgres.endSession] at hplace
    refine ⟨hne,opened_eq_some.mpr ⟨hlead,?_⟩⟩
    simpa [Postgres.endSession,hne] using hplace
  refine ⟨?_,fun i name g hi => ?_⟩
  · have hrest : Rep c (opened (c.endSession s) leaders) :=
      h.rep.restrict fun i lead hi => (hsession i lead.1 lead.2 hi).2
    exact hrest.endSession fun i name g hi => (hsession i name g hi).1
  · by_cases heq : g.session = s
    · exact .inr ⟨heq ▸ Function.update_self ..,h.known hi⟩
    · exact (h.settled i name g hi).mono (Function.update_of_ne heq ..) le_rfl

omit [DecidableEq Client] in
theorem Lossy.others (h : Lossy c leaders) (choice : Choice) : Lossy (c.other choice) leaders := by
  by_cases hlose : ∃ s, choice = .lose s
  · obtain ⟨s,rfl⟩ := hlose
    exact h.loses s
  · have hkeeps : Keeps c choice := by
      cases choice with
      | lose s => exact absurd ⟨s,rfl⟩ hlose
      | _ => trivial
    have hplace := fun i name g (hi : leaders i = some (name,g)) =>
      other_place (h.settled i name g hi) fun heq : choice = .lose g.session => hlose ⟨_,heq⟩
    refine ⟨?_,fun i name g hi => ?_⟩
    · rw [opened_congr fun i name g hi => (hplace i name g hi).1]
      exact h.rep.other hkeeps
    · obtain ⟨hsame,hnext⟩ := hplace i name g hi
      exact (h.settled i name g hi).mono hsame hnext.ge

theorem lossy_of_reachable {s : State Postgres Client String CoordinationGuard}
    (h : Runs.Reachable (system postgresCoordinator .empty) s) :
    Lossy s.coordinator s.leaders := by
  refine Runs.ReachableBy.invariant (I := fun s => Lossy s.coordinator s.leaders) ?_ ?_ h
  · rintro s rfl
    exact ⟨rep_empty,fun i name g hi => by cases hi⟩
  · rintro s l t hinv - hstep
    cases l with
    | acquire i name choice =>
      cases hlead : s.leaders i with
      | some lead => simp [system,State.step,hlead] at hstep
      | none =>
        simp only [system,State.step,hlead,Option.some.injEq] at hstep
        subst hstep
        exact hinv.acquires hlead name choice
    | drop i choice =>
      simp only [system,State.step,Option.map_eq_some_iff,Prod.exists] at hstep
      obtain ⟨name,g,hlead,rfl⟩ := hstep
      exact hinv.drops hlead choice
    | other choice =>
      obtain rfl := Option.some.inj hstep
      exact hinv.others choice

/-- Whatever happens to connections, unlocks and runtimes, in every run: of the guards whose
sessions are not lost no two have one lock key, and each holds its lock; on a pooled connection a
subscription is refused exactly while another session holds its key, be it a guard's or not. Until
a guard's session is lost, the coordinator is one with exclusive guards. -/
theorem open_guards_apart {s : State Postgres Client String CoordinationGuard}
    (h : Runs.Reachable (system postgresCoordinator .empty) s) :
    (∀ i j name name' g g', s.leaders i = some (name,g) → s.leaders j = some (name',g') →
      s.coordinator.place g.session = .owned → s.coordinator.place g'.session = .owned →
      advisoryLockKey name = advisoryLockKey name' → i = j) ∧
    (∀ i name g, s.leaders i = some (name,g) → s.coordinator.place g.session = .owned →
      s.coordinator.Holding g.session (advisoryLockKey name)) ∧
    (∀ t name, s.coordinator.place t = .idle →
      ((s.coordinator.tryAcquire name (.pooled t)).1 = none ↔
        ∃ u, u ≠ t ∧ s.coordinator.Holding u (advisoryLockKey name))) ∧
    ∃ Rep : Postgres → Leaders Client String CoordinationGuard → Prop,
      Rep .empty (fun _ => none) ∧ Exclusive postgresCoordinator Keeps Rep := by
  have hinv := lossy_of_reachable h
  have hholding : ∀ i name g, s.leaders i = some (name,g) →
      s.coordinator.place g.session = .owned →
      s.coordinator.Holding g.session (advisoryLockKey name) := by
    intro i name g hi howned
    obtain ⟨hkey,hholds,-⟩ := hinv.rep.led (opened_eq_some.mpr ⟨hi,howned⟩)
    exact .inl (hkey ▸ hholds)
  refine ⟨fun i j name name' g g' hi hj howned howned' hkey => ?_,hholding,fun t name hidle => ?_,
    Rep,rep_empty,postgres_exclusive⟩
  · refine hinv.rep.apart (opened_eq_some.mpr ⟨hi,howned⟩) (opened_eq_some.mpr ⟨hj,howned'⟩) ?_
    exact hinv.rep.exclusive (hkey ▸ hholding i name g hi howned) (hholding j name' g' hj howned')
  · rw [← hinv.rep.blocked_iff,Postgres.tryAcquire,if_pos hidle,Postgres.tryLock]
    split_ifs with hblocked <;> simp [hblocked]

end Guards

/-- The session of the first guard is lost, so that another client gets a guard for the same
subscription; a third client is refused. -/
def lostSession (first second third : Fin 3) : List (Label (Fin 3) String Choice) :=
  [.acquire first "a" .connected,.other (.lose 0),.acquire second "a" .connected,
    .acquire third "a" .connected]

theorem open_guards_apart_lost :
    ∃ s, Runs.exec (system postgresCoordinator .empty) ⟨.empty,fun _ => none⟩
      (lostSession 0 1 2) = some s ∧
      (s.leaders 0).isSome ∧ (s.leaders 1).isSome ∧
      ∃ u, u ≠ 2 ∧ s.coordinator.Holding u (advisoryLockKey "a") := by
  obtain ⟨s,hs,hfirst,hsecond,hidle,hrefused⟩ : ∃ s, Runs.exec
      (system postgresCoordinator .empty) ⟨.empty,fun _ => none⟩
      (lostSession 0 1 2) = some s ∧
      (s.leaders 0).isSome ∧ (s.leaders 1).isSome ∧ s.coordinator.place 2 = .idle ∧
      (s.coordinator.tryAcquire "a" (.pooled 2)).1 = none :=
    ⟨_,rfl,by decide,by decide,by decide,by decide⟩
  have hreach := Runs.Reachable.exec (.init rfl) hs
  exact ⟨s,hs,hfirst,hsecond,((open_guards_apart hreach).2.2.1 2 "a" hidle).mp hrefused⟩

end AdvisoryLocks
end EventCore
