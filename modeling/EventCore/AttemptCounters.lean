import EventCore.SnapshotExecutor

/-! The attempt counters of both executors as the `u32` values they are, with a record of every
addition made to them, and what one append does to a counter. -/
namespace EventCore
namespace AttemptCounters

open Runs SnapshotReplay ExecuteLoop SnapshotExecutor

variable {Any Raw Value E S : Type}

def u32Max : UInt32 := 4294967295

/-- `RetryPolicy` with its retries in the type that the code gives them. -/
structure U32Policy where
  maxRetries : UInt32 := 4
  backoffStrategy : BackoffStrategy := .exponential 10
  metricsHook : Bool := false
  deriving DecidableEq

namespace U32Policy

/-- The builder `max_retries`. It takes every value. -/
def withMaxRetries (policy : U32Policy) (retries : UInt32) : U32Policy :=
  { policy with maxRetries := retries }

def unbounded (policy : U32Policy) : RetryPolicy :=
  ⟨policy.maxRetries.toNat,policy.backoffStrategy,policy.metricsHook⟩

end U32Policy

/-- `NonZeroU32::new` -/
def nonZeroU32 (n : UInt32) : Option ℕ+ :=
  if h : 0 < n.toNat then some ⟨n.toNat,h⟩ else none

/-- `NonZeroU32::new(attempt + 1).expect(message)`. An addition that overflows panics where the
build has overflow checks, and wraps around where it has none. -/
def attemptNumber (overflowChecks : Bool) (message : String) (attempt : UInt32) :
    Except String ℕ+ :=
  if overflowChecks && attempt == u32Max then .error "attempt to add with overflow"
  else
    match nonZeroU32 (attempt+1) with
    | some number => .ok number
    | none => .error message

/-- How an executor goes on behind an append. -/
inductive Verdict
  | success (attempts : ℕ+)
  | retry (attemptNumber : ℕ+) (delayMs : ℕ)
  | failure (error : CommandError)
  | panicked (message : String)

def Verdict.next (attempt : UInt32) : Verdict → UInt32
  | .retry .. => attempt+1
  | _ => attempt

def Verdict.goesOn : Verdict → Bool
  | .retry .. => true
  | _ => false

/-- The arms behind an append that the two executors share but for the messages of their
`expect`s, and every value of `attempt` that they add one to. -/
def settleAppend (overflowChecks : Bool) (successMessage retryMessage : String)
    (policy : U32Policy) (applyJitter : ℕ → ℕ) (attempt : UInt32) :
    Except EventStoreError Unit → List UInt32 × Verdict
  | .ok _ =>
    match attemptNumber overflowChecks successMessage attempt with
    | .ok attempts => ([attempt],.success attempts)
    | .error message => ([attempt],.panicked message)
  | .error (.versionConflict ..) =>
    if attempt < policy.maxRetries then
      let delayMs := computeRetryDelayMs applyJitter policy.backoffStrategy attempt.toNat
      match attemptNumber overflowChecks retryMessage attempt with
      -- once for the number, and once more in `attempt += 1`
      | .ok number => ([attempt,attempt],.retry number delayMs)
      | .error message => ([attempt],.panicked message)
    else ([],.failure (.concurrencyError policy.maxRetries.toNat))
  | .error other => ([],.failure (.eventStoreError other))

/-- `ExecutePipeline` with its counter, and a record of all values of it that one was added to. -/
structure U32Pipeline (Any Raw Value E S : Type) where
  command : CommandLogic Any Raw Value E S
  policy : U32Policy
  phase : Phase S
  attempt : UInt32
  hookCalls : List RetryContext
  operands : List UInt32

namespace U32Pipeline

def new (command : CommandLogic Any Raw Value E S) (policy : U32Policy) :
    U32Pipeline Any Raw Value E S :=
  ⟨command,policy,.init,0,[],[]⟩

def unbounded (p : U32Pipeline Any Raw Value E S) : ExecutePipeline Any Raw Value E S :=
  ⟨p.command,p.policy.unbounded,p.phase,p.attempt.toNat,p.hookCalls⟩

/-- What a part of the pipeline comes to that neither reads nor writes the counter. -/
def lift (p : U32Pipeline Any Raw Value E S)
    (r : ExecutePipeline Any Raw Value E S × PipelineStep Any Raw) :
    U32Pipeline Any Raw Value E S × PipelineStep Any Raw :=
  ({ p with phase := r.1.phase },r.2)

/-- `resume` in the phase `AwaitingAppend`. -/
def resumeAppended (overflowChecks : Bool) (applyJitter : ℕ → ℕ)
    (p : U32Pipeline Any Raw Value E S) (streamIds : List StreamId)
    (result : Except EventStoreError Unit) :
    U32Pipeline Any Raw Value E S × PipelineStep Any Raw :=
  let (operands,verdict) := settleAppend overflowChecks "attempts are 1-based"
    "attempt_number is always > 0" p.policy applyJitter p.attempt result
  let p := { p with operands := p.operands ++ operands, phase := .done }
  match verdict with
  | .success attempts => (p,.done (.success attempts))
  | .retry number delayMs =>
    let ctx : RetryContext := ⟨streamIds,number,delayMs⟩
    ({ p with
        attempt := p.attempt+1
        phase := .awaitingRetrySleep
        hookCalls := if p.policy.metricsHook then p.hookCalls ++ [ctx] else p.hookCalls },
      .yield (.sleep delayMs))
  | .failure error => (p,.done (.error error))
  | .panicked message => (p,.panicked message)

def resume (overflowChecks : Bool) (applyJitter : ℕ → ℕ) (p : U32Pipeline Any Raw Value E S)
    (result : StoreEffectResult E) : U32Pipeline Any Raw Value E S × PipelineStep Any Raw :=
  match p.phase, result with
  | .awaitingAppend streamIds, .eventsAppended result =>
    p.resumeAppended overflowChecks applyJitter streamIds result
  | _, result => p.lift (p.unbounded.resume applyJitter result)

end U32Pipeline

/-- One `execute` call whose pipeline counts its attempts. -/
structure U32Execution (Any Raw Value E S : Type) where
  pipeline : U32Pipeline Any Raw Value E S
  step : PipelineStep Any Raw
  calls : List (Call Any Raw E)

namespace U32Execution

def unbounded (x : U32Execution Any Raw Value E S) : Execution Any Raw Value E S :=
  ⟨x.pipeline.unbounded,x.step,x.calls⟩

def start (command : CommandLogic Any Raw Value E S) (policy : U32Policy) :
    U32Execution Any Raw Value E S :=
  let p := U32Pipeline.new command policy
  let (pipeline,step) := p.lift p.unbounded.step
  ⟨pipeline,step,[]⟩

/-- One round of the loop; a stream is pumped without a look at the counter. -/
def dispatch (overflowChecks : Bool) (x : U32Execution Any Raw Value E S) (answer : Answer E) :
    Option (U32Execution Any Raw Value E S) :=
  match x.step, answer with
  | .yield (.readStream streamId), .opened opened =>
    let (pipeline,step) := x.pipeline.lift (x.pipeline.unbounded.pumpStreamReads id opened)
    some ⟨pipeline,step,x.calls ++ [.read streamId opened]⟩
  | .yield (.appendEvents writes), .appended result applyJitter =>
    let (pipeline,step) := x.pipeline.resume overflowChecks applyJitter (.eventsAppended result)
    some ⟨pipeline,step,x.calls ++ [.append writes result]⟩
  | .yield (.sleep _), .slept =>
    let (pipeline,step) := x.pipeline.resume overflowChecks id .slept
    some ⟨pipeline,step,x.calls⟩
  | _, _ => none

end U32Execution

/-- All runs of `execute`, whatever the store answers. -/
def pipelineSystem (overflowChecks : Bool) (command : CommandLogic Any Raw Value E S)
    (policy : U32Policy) : System (U32Execution Any Raw Value E S) (Answer E) where
  init x := x = .start command policy
  step := U32Execution.dispatch overflowChecks

/-- What one pass through the loop of `execute_with_snapshot` finds: the answers of the store, the
contents of the streams while it reads them, and the jitter of the delay it may lead to. -/
structure Pass (Value E : Type) where
  loaded : Except EventStoreError (Option (CommandStateSnapshot Value))
  contents : Contents E
  fuel : ℕ
  saved : Except EventStoreError Unit
  appendResult : Except EventStoreError Unit
  applyJitter : ℕ → ℕ

/-- The pass up to its append: load a snapshot, reconstruct the state, save its projection if
there is a new one, and build the batch. -/
def Pass.writes (pass : Pass Value E) (command : CommandLogic Any Raw Value E S) :
    Except Stop (StreamWrites Any Raw) := do
  let storedSnapshot ← pass.loaded.mapError fun e => .error (.eventStoreError e)
  let r ← reconstructCommandSnapshot command pass.contents pass.fuel
    command.streamDeclarations.streams storedSnapshot
  if r.snapshot.isSome then pass.saved.mapError fun e => .error (.eventStoreError e)
  (command.batch r.expectedVersions r.state).mapError .error

/-- The loop of `execute_with_snapshot` with its counter, the values of it that one was added to,
and the answers to the appends so far. -/
structure U32SnapshotRun (Any Raw : Type) where
  attempt : UInt32
  operands : List UInt32
  appendResults : List (Except EventStoreError Unit)
  batches : List (StreamWrites Any Raw)
  retries : List RetryContext
  ending : Option Ending

namespace U32SnapshotRun

def start (Any Raw : Type) : U32SnapshotRun Any Raw := ⟨0,[],[],[],[],none⟩

def ends (run : U32SnapshotRun Any Raw) (ending : Ending) : U32SnapshotRun Any Raw :=
  { run with ending := some ending }

def append (overflowChecks : Bool) (streamIds : List StreamId) (policy : U32Policy)
    (run : U32SnapshotRun Any Raw) (writes : StreamWrites Any Raw)
    (result : Except EventStoreError Unit) (applyJitter : ℕ → ℕ) : U32SnapshotRun Any Raw :=
  let (operands,verdict) := settleAppend overflowChecks "attempts are 1-based"
    "attempt number is non-zero" policy applyJitter run.attempt result
  let run := { run with
    operands := run.operands ++ operands
    appendResults := run.appendResults ++ [result]
    batches := run.batches ++ [writes] }
  match verdict with
  | .success attempts => run.ends (.finished (.success attempts))
  | .retry number delayMs =>
    let ctx : RetryContext := ⟨streamIds,number,delayMs⟩
    { run with
      attempt := run.attempt+1
      retries := if policy.metricsHook then run.retries ++ [ctx] else run.retries }
  | .failure error => run.ends (.finished (.error error))
  | .panicked message => run.ends (.panicked message)

/-- One pass; `none` behind the end of the loop, and when the discovery goes on beyond the fuel. -/
def step (overflowChecks : Bool) (command : CommandLogic Any Raw Value E S) (policy : U32Policy)
    (run : U32SnapshotRun Any Raw) (pass : Pass Value E) : Option (U32SnapshotRun Any Raw) :=
  match run.ending, pass.writes command with
  | some _, _ => none
  | none, .error (.error e) => some (run.ends (.finished (.error e)))
  | none, .error (.panicked message) => some (run.ends (.panicked message))
  | none, .error .outOfFuel => none
  | none, .ok writes =>
    some (run.append overflowChecks command.streamDeclarations.streams policy writes
      pass.appendResult pass.applyJitter)

end U32SnapshotRun

/-- All runs of `execute_with_snapshot`, whatever the store answers. -/
def snapshotSystem (overflowChecks : Bool) (command : CommandLogic Any Raw Value E S)
    (policy : U32Policy) : System (U32SnapshotRun Any Raw) (Pass Value E) where
  init run := run = .start Any Raw
  step := U32SnapshotRun.step overflowChecks command policy

section Counter

theorem toNat_succ {attempt : UInt32} (h : attempt ≠ u32Max) :
    (attempt+1).toNat = attempt.toNat+1 := by
  have hlt := attempt.toNat_lt
  have hne : attempt.toNat ≠ u32Max.toNat := fun he => h (UInt32.toNat_inj.mp he)
  rw [show u32Max.toNat = 2^32-1 from rfl] at hne
  rw [UInt32.toNat_add,UInt32.toNat_one]
  omega

theorem le_u32Max (attempt : UInt32) : attempt ≤ u32Max := by
  have hlt := attempt.toNat_lt
  rw [UInt32.le_iff_toNat_le,show u32Max.toNat = 2^32-1 from rfl]
  omega

theorem ne_u32Max {attempt bound : UInt32} (h : attempt < bound) : attempt ≠ u32Max := by
  rintro rfl
  exact absurd (le_u32Max bound) (UInt32.not_le.mpr h)

theorem attemptNumber_eq (overflowChecks : Bool) (message : String) {attempt : UInt32}
    (h : attempt ≠ u32Max) :
    attemptNumber overflowChecks message attempt = .ok attempt.toNat.succPNat := by
  have hpos : 0 < (attempt+1).toNat := by
    rw [toNat_succ h]
    exact Nat.succ_pos _
  simp only [attemptNumber,beq_eq_false_iff_ne.mpr h,Bool.and_false,Bool.false_eq_true,if_false,
    nonZeroU32,dif_pos hpos]
  exact congrArg _ (PNat.eq (toNat_succ h))

/-- At the maximum there is no way on, with overflow checks or without. -/
theorem attemptNumber_max (overflowChecks : Bool) (message : String) :
    attemptNumber overflowChecks message u32Max =
      .error (if overflowChecks then "attempt to add with overflow" else message) := by
  cases overflowChecks <;> rfl

/-- Everything that can follow an append, and the additions made on the way. -/
inductive Settles (overflowChecks : Bool) (message : String) (policy : U32Policy)
    (applyJitter : ℕ → ℕ) (attempt : UInt32) :
    Except EventStoreError Unit → List UInt32 × Verdict → Prop
  | success : attempt ≠ u32Max → Settles overflowChecks message policy applyJitter attempt
      (.ok ()) ([attempt],.success attempt.toNat.succPNat)
  | overflow : attempt = u32Max → Settles overflowChecks message policy applyJitter attempt
      (.ok ()) ([attempt],.panicked
        (if overflowChecks then "attempt to add with overflow" else message))
  | retry {streamId : StreamId} {expected actual : StreamVersion} : attempt < policy.maxRetries →
      Settles overflowChecks message policy applyJitter attempt
        (.error (.versionConflict streamId expected actual))
        ([attempt,attempt],.retry attempt.toNat.succPNat
          (computeRetryDelayMs applyJitter policy.backoffStrategy attempt.toNat))
  | exhausted {streamId : StreamId} {expected actual : StreamVersion} :
      ¬attempt < policy.maxRetries → Settles overflowChecks message policy applyJitter attempt
        (.error (.versionConflict streamId expected actual))
        ([],.failure (.concurrencyError policy.maxRetries.toNat))
  | failed {e : EventStoreError} : ¬IsConflict e →
      Settles overflowChecks message policy applyJitter attempt (.error e)
        ([],.failure (.eventStoreError e))

theorem settleAppend_settles (overflowChecks : Bool) (successMessage retryMessage : String)
    (policy : U32Policy) (applyJitter : ℕ → ℕ) (attempt : UInt32)
    (result : Except EventStoreError Unit) :
    Settles overflowChecks successMessage policy applyJitter attempt result (settleAppend
      overflowChecks successMessage retryMessage policy applyJitter attempt result) := by
  cases result with
  | ok =>
    by_cases h : attempt = u32Max
    · simp only [settleAppend,h,attemptNumber_max]
      exact .overflow rfl
    · simp only [settleAppend,attemptNumber_eq _ _ h]
      exact .success h
  | error e =>
    by_cases he : IsConflict e
    · obtain ⟨streamId,expected,actual,rfl⟩ := he
      by_cases h : attempt < policy.maxRetries
      · simp only [settleAppend,if_pos h,attemptNumber_eq _ _ (ne_u32Max h)]
        exact .retry h
      · simp only [settleAppend,if_neg h]
        exact .exhausted h
    · have hfailed : settleAppend overflowChecks successMessage retryMessage policy applyJitter
          attempt (.error e) = ([],.failure (.eventStoreError e)) := by
        cases e with
        | versionConflict streamId expected actual => exact absurd ⟨_,_,_,rfl⟩ he
        | _ => rfl
      rw [hfailed]
      exact .failed he

/-- What holds of the counter while the executor may still retry: it is the number of the appends,
all of which came back as conflicts, and one was added to every smaller value. -/
structure Retrying (policy : U32Policy) (attempt : UInt32) (operands : List UInt32)
    (results : List (Except EventStoreError Unit)) : Prop where
  bound : attempt ≤ policy.maxRetries
  conflicts : ∀ result ∈ results, isConflict result = true
  length : results.length = attempt.toNat
  operands : ∀ o, o ∈ operands ↔ o < attempt

structure Counts (policy : U32Policy) (attempt : UInt32) (operands : List UInt32)
    (results : List (Except EventStoreError Unit)) : Prop where
  bound : attempt ≤ policy.maxRetries
  conflicts : .ok () ∈ results → (results.filter isConflict).length = attempt.toNat
  operands : ∀ o, o ∈ operands ↔ o < attempt ∨ o = attempt ∧ .ok () ∈ results

variable {policy : U32Policy} {attempt : UInt32} {operands : List UInt32}
  {results : List (Except EventStoreError Unit)}

theorem retrying_start (policy : U32Policy) : Retrying policy 0 [] [] where
  bound := UInt32.le_iff_toNat_le.mpr (Nat.zero_le _)
  conflicts := by simp
  length := rfl
  operands o := by simp

theorem Retrying.not_ok (h : Retrying policy attempt operands results) :
    (.ok () : Except EventStoreError Unit) ∉ results := fun hok => by
  cases h.conflicts _ hok

theorem Retrying.counts (h : Retrying policy attempt operands results) :
    Counts policy attempt operands results where
  bound := h.bound
  conflicts hok := absurd hok h.not_ok
  operands o := by simp [h.operands,h.not_ok]

theorem Retrying.no_overflow (h : Retrying policy attempt operands results) :
    u32Max ∉ operands := fun hmem =>
  ne_u32Max ((h.operands _).mp hmem) rfl

theorem Retrying.retry (h : Retrying policy attempt operands results)
    (hlt : attempt < policy.maxRetries) (streamId : StreamId) (expected actual : StreamVersion) :
    Retrying policy (attempt+1) (operands ++ [attempt,attempt])
      (results ++ [.error (.versionConflict streamId expected actual)]) := by
  have hsucc := toNat_succ (ne_u32Max hlt)
  constructor
  · rw [UInt32.le_iff_toNat_le,hsucc]
    exact UInt32.lt_iff_toNat_lt.mp hlt
  · intro result hresult
    rcases List.mem_append.mp hresult with hresult | hresult
    · exact h.conflicts result hresult
    · rw [List.mem_singleton.mp hresult]
      rfl
  · rw [List.length_append,h.length,hsucc]
    rfl
  · intro o
    have hlt' : o < attempt+1 ↔ o < attempt ∨ o = attempt := by
      rw [UInt32.lt_iff_toNat_lt,UInt32.lt_iff_toNat_lt,hsucc,← UInt32.toNat_inj]
      omega
    simp [h.operands,hlt']

theorem Retrying.success (h : Retrying policy attempt operands results) :
    Counts policy attempt (operands ++ [attempt]) (results ++ [.ok ()]) where
  bound := h.bound
  conflicts _ := by
    rw [List.filter_append,List.filter_eq_self.mpr h.conflicts,List.length_append,h.length]
    rfl
  operands o := by simp [h.operands]

theorem Retrying.failure (h : Retrying policy attempt operands results) (e : EventStoreError) :
    Counts policy attempt (operands ++ []) (results ++ [.error e]) where
  bound := h.bound
  conflicts hok := by simp [h.not_ok] at hok
  operands o := by simp [h.operands,h.not_ok]

theorem Retrying.settle (h : Retrying policy attempt operands results) {overflowChecks : Bool}
    {message : String} {applyJitter : ℕ → ℕ} {result : Except EventStoreError Unit}
    {settled : List UInt32 × Verdict}
    (hs : Settles overflowChecks message policy applyJitter attempt result settled) :
    Counts policy (settled.2.next attempt) (operands ++ settled.1) (results ++ [result]) ∧
    (settled.2.goesOn = true →
      Retrying policy (settled.2.next attempt) (operands ++ settled.1) (results ++ [result])) := by
  cases hs with
  | success => exact ⟨h.success,nofun⟩
  | overflow => exact ⟨h.success,nofun⟩
  | retry hlt => exact ⟨(h.retry hlt _ _ _).counts,fun _ => h.retry hlt _ _ _⟩
  | exhausted => exact ⟨h.failure _,nofun⟩
  | failed => exact ⟨h.failure _,nofun⟩

/-- The policy allows fewer retries than the type can count, or the appends so far have not come to
a success behind that many conflicts. -/
def Fits (policy : U32Policy) (results : List (Except EventStoreError Unit)) : Prop :=
  policy.maxRetries < u32Max ∨ .ok () ∉ results ∨
    (results.filter isConflict).length < u32Max.toNat

theorem Counts.no_overflow_iff (h : Counts policy attempt operands results) :
    u32Max ∉ operands ↔ Fits policy results := by
  rw [h.operands]
  constructor
  · intro hno
    by_contra hfits
    simp only [Fits,not_or,not_not,Nat.not_lt] at hfits
    obtain ⟨-,hok,hconflicts⟩ := hfits
    rw [h.conflicts hok] at hconflicts
    have hmax := UInt32.le_antisymm (UInt32.le_iff_toNat_le.mpr hconflicts) (le_u32Max attempt)
    exact hno (.inr ⟨hmax,hok⟩)
  · rintro hfits (hlt | ⟨rfl,hok⟩)
    · exact ne_u32Max hlt rfl
    · rcases hfits with hlt | hnot | hconflicts
      · exact absurd h.bound (UInt32.not_le.mpr hlt)
      · exact hnot hok
      · exact absurd (h.conflicts hok) hconflicts.ne

end Counter

end AttemptCounters
end EventCore
