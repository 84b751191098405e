import EventCore.ProjectionProgress

/-! The calls a projection run makes of its projector: how often one event is applied, which retry
counts the error handler sees, and where a run that gives up leaves the checkpoint. -/
namespace EventCore

namespace ProjectorCall

variable {E : Type}

def event : ProjectorCall E → E
  | .applied event _ => event
  | .failed event .. => event

def position : ProjectorCall E → Uuid
  | .applied _ position => position
  | .failed _ position .. => position

/-- What `on_error` was told, when it was asked. -/
def retryCount : ProjectorCall E → Option ℕ
  | .applied .. => none
  | .failed _ _ retryCount _ => some retryCount

/-- The decision was fatal, or to retry once more than is configured. -/
def GivesUp (maxRetryAttempts : ℕ) : ProjectorCall E → Prop
  | .failed _ _ _ .fatal => True
  | .failed _ _ retryCount .retry => maxRetryAttempts ≤ retryCount
  | _ => False

end ProjectorCall

namespace EventRetries

open ProjectionProgress

variable {P E X Err : Type}

def callsAt (position : Uuid) (calls : List (ProjectorCall E)) : List (ProjectorCall E) :=
  calls.filter fun c => c.position = position

def handledIn (calls : List (ProjectorCall E)) : List Uuid :=
  (calls.filterMap ProjectorCall.handled).map Prod.snd

/-- Where the calls of a run stand: between two events, at the `n`-th retry of one, or at its
end. -/
inductive Status (E : Type)
  | between
  | attempting (event : E) (position : Uuid) (n : ℕ)
  | gaveUp (event : E) (position : Uuid)

inductive Trace (maxRetryAttempts : ℕ) : List (ProjectorCall E) → Status E → Prop
  | nil : Trace maxRetryAttempts [] .between
  | deliver {l : List (ProjectorCall E)} {event : E} {position : Uuid} :
      Trace maxRetryAttempts l .between → (∀ c ∈ l, c.position < position) →
        Trace maxRetryAttempts l (.attempting event position 0)
  | applied {l : List (ProjectorCall E)} {event : E} {position : Uuid} {n : ℕ} :
      Trace maxRetryAttempts l (.attempting event position n) →
        Trace maxRetryAttempts (l ++ [.applied event position]) .between
  | skip {l : List (ProjectorCall E)} {event : E} {position : Uuid} {n : ℕ} :
      Trace maxRetryAttempts l (.attempting event position n) →
        Trace maxRetryAttempts (l ++ [.failed event position n .skip]) .between
  | retry {l : List (ProjectorCall E)} {event : E} {position : Uuid} {n : ℕ} :
      Trace maxRetryAttempts l (.attempting event position n) → n < maxRetryAttempts →
        Trace maxRetryAttempts (l ++ [.failed event position n .retry])
          (.attempting event position (n+1))
  | fatal {l : List (ProjectorCall E)} {event : E} {position : Uuid} {n : ℕ} :
      Trace maxRetryAttempts l (.attempting event position n) →
        Trace maxRetryAttempts (l ++ [.failed event position n .fatal]) (.gaveUp event position)
  | exhausted {l : List (ProjectorCall E)} {event : E} {position : Uuid} {n : ℕ} :
      Trace maxRetryAttempts l (.attempting event position n) → maxRetryAttempts ≤ n →
        Trace maxRetryAttempts (l ++ [.failed event position n .retry]) (.gaveUp event position)

section Trace

variable {maxRetryAttempts : ℕ} {calls : List (ProjectorCall E)} {status : Status E}

/-- The first `n` attempts at an event, all of them to be retried. -/
def attempts (event : E) (position : Uuid) (n : ℕ) : List (ProjectorCall E) :=
  (List.range n).map fun k => .failed event position k .retry

theorem length_attempts (event : E) (position : Uuid) (n : ℕ) :
    (attempts event position n).length = n := by
  simp [attempts]

theorem retryCount_attempts (event : E) (position : Uuid) (n : ℕ) :
    (attempts event position n).filterMap ProjectorCall.retryCount = List.range n := by
  simp [attempts,List.filterMap_map,Function.comp_def,ProjectorCall.retryCount]

theorem callsAt_concat (q : Uuid) (c : ProjectorCall E) :
    callsAt q (calls ++ [c]) = callsAt q calls ++ if c.position = q then [c] else [] := by
  by_cases h : c.position = q <;> simp [callsAt,h]

theorem mem_handledIn_concat {q : Uuid} (c : ProjectorCall E) (h : q ∈ handledIn calls) :
    q ∈ handledIn (calls ++ [c]) := by
  rw [handledIn,List.filterMap_append,List.map_append]
  exact List.mem_append_left _ h

theorem Trace.callsAt_attempting {event : E} {position : Uuid} {n : ℕ}
    (h : Trace maxRetryAttempts calls (.attempting event position n)) :
    n ≤ maxRetryAttempts ∧ callsAt position calls = attempts event position n := by
  generalize hstatus : Status.attempting event position n = status at h
  induction h generalizing n with
  | deliver _ hlater =>
    cases hstatus
    refine ⟨Nat.zero_le _,List.filter_eq_nil_iff.mpr fun c hc => ?_⟩
    simpa using (hlater c hc).ne
  | retry _ hlt ih =>
    cases hstatus
    obtain ⟨-,hcalls⟩ := ih rfl
    refine ⟨hlt,?_⟩
    rw [callsAt_concat,hcalls]
    simp [attempts,List.range_succ,ProjectorCall.position]
  | _ => cases hstatus

/-- No position sees more than the first attempt and the configured retries, and the retry counts
start at zero for each. -/
def Bounded (maxRetryAttempts : ℕ) (calls : List (ProjectorCall E)) : Prop :=
  ∀ q, (callsAt q calls).length ≤ maxRetryAttempts+1 ∧
    ∃ k, (callsAt q calls).filterMap ProjectorCall.retryCount = List.range k

theorem Bounded.concat {event : E} {position : Uuid} {n : ℕ} {c : ProjectorCall E}
    (h : Bounded maxRetryAttempts calls)
    (htrace : Trace maxRetryAttempts calls (.attempting event position n))
    (hposition : c.position = position) (hcount : c.retryCount = none ∨ c.retryCount = some n) :
    Bounded maxRetryAttempts (calls ++ [c]) := by
  intro q
  rw [callsAt_concat,hposition]
  split_ifs with hq
  · subst hq
    obtain ⟨hle,hcalls⟩ := htrace.callsAt_attempting
    rw [hcalls]
    refine ⟨by simpa [length_attempts] using hle,?_⟩
    rw [List.filterMap_append,retryCount_attempts]
    rcases hcount with hcount | hcount
    · exact ⟨n,by simp [hcount]⟩
    · exact ⟨n+1,by simp [hcount,List.range_succ]⟩
  · rw [List.append_nil]
    exact h q

theorem Trace.bounded (h : Trace maxRetryAttempts calls status) :
    Bounded maxRetryAttempts calls := by
  induction h with
  | nil => exact fun q => ⟨Nat.zero_le _,0,rfl⟩
  | deliver _ _ ih => exact ih
  | applied htrace ih => exact ih.concat htrace rfl (.inl rfl)
  | skip htrace ih | retry htrace _ ih | fatal htrace ih | exhausted htrace _ ih =>
    exact ih.concat htrace rfl (.inr rfl)

/-- Every call is about an event that is settled, but for those of the event at hand. -/
def Status.Behind (calls : List (ProjectorCall E)) : Status E → Prop
  | .between => ∀ c ∈ calls, c.position ∈ handledIn calls
  | .attempting _ position _ | .gaveUp _ position => ∀ c ∈ calls,
      c.position = position ∨ c.position < position ∧ c.position ∈ handledIn calls

theorem Status.Behind.settle {event : E} {position : Uuid} {n : ℕ} {c : ProjectorCall E}
    (h : (Status.attempting event position n).Behind calls)
    (hc : c.handled = some (event,position)) (hposition : c.position = position) :
    Status.between.Behind (calls ++ [c]) := by
  have hlast : position ∈ handledIn (calls ++ [c]) := by simp [handledIn,hc]
  intro d hd
  rcases List.mem_append.mp hd with hd | hd
  · rcases h d hd with heq | ⟨-,hmem⟩
    · exact heq ▸ hlast
    · exact mem_handledIn_concat c hmem
  · obtain rfl := List.mem_singleton.mp hd
    exact hposition ▸ hlast

theorem Status.Behind.concat {event : E} {position : Uuid} {n m : ℕ} {c : ProjectorCall E}
    (h : (Status.attempting event position n).Behind calls) (hposition : c.position = position) :
    (Status.attempting event position m).Behind (calls ++ [c]) := by
  intro d hd
  rcases List.mem_append.mp hd with hd | hd
  · exact (h d hd).imp_right fun ⟨hlt,hmem⟩ => ⟨hlt,mem_handledIn_concat c hmem⟩
  · obtain rfl := List.mem_singleton.mp hd
    exact .inl hposition

theorem Trace.behind (h : Trace maxRetryAttempts calls status) : status.Behind calls := by
  induction h with
  | nil => exact fun c hc => absurd hc List.not_mem_nil
  | deliver _ hlater ih => exact fun c hc => .inr ⟨hlater c hc,ih c hc⟩
  | applied _ ih | skip _ ih => exact ih.settle rfl rfl
  | @retry _ _ _ n _ _ ih => exact Status.Behind.concat (m := n+1) ih rfl
  | fatal _ ih => exact Status.Behind.concat (m := 0) ih rfl
  | exhausted _ _ ih => exact Status.Behind.concat (m := 0) ih rfl

/-- Before the first call for an event, every earlier one is settled. -/
def InTurn (calls : List (ProjectorCall E)) : Prop :=
  ∀ l c, l ++ [c] <+: calls → ∀ d ∈ l, d.position = c.position ∨
    d.position < c.position ∧ d.position ∈ handledIn l

theorem InTurn.concat {event : E} {position : Uuid} {n : ℕ} {c : ProjectorCall E}
    (h : InTurn calls) (hbehind : (Status.attempting event position n).Behind calls)
    (hposition : c.position = position) : InTurn (calls ++ [c]) := by
  intro l d hl
  rcases List.prefix_concat_iff.mp hl with heq | hl
  · obtain ⟨rfl,hlast⟩ := List.append_inj' heq rfl
    obtain rfl := List.singleton_inj.mp hlast
    rw [hposition]
    exact hbehind
  · exact h l d hl

theorem Trace.inTurn (h : Trace maxRetryAttempts calls status) : InTurn calls := by
  induction h with
  | nil => exact fun l c hl => absurd (List.prefix_nil.mp hl) (by simp)
  | deliver _ _ ih => exact ih
  | applied htrace ih | skip htrace ih | retry htrace _ ih | fatal htrace ih
  | exhausted htrace _ ih =>
    exact ih.concat htrace.behind rfl

theorem position_of_mem_handledIn {q : Uuid} (h : q ∈ handledIn calls) :
    ∃ c ∈ calls, c.position = q := by
  obtain ⟨e,he,rfl⟩ := List.mem_map.mp h
  obtain ⟨c,hc,hhandled⟩ := List.mem_filterMap.mp he
  refine ⟨c,hc,?_⟩
  cases c with
  | applied event position =>
    cases hhandled
    rfl
  | failed event position n strategy =>
    cases strategy with
    | skip =>
      cases hhandled
      rfl
    | fatal | retry => cases hhandled

theorem handledIn_concat_none {c : ProjectorCall E} (h : c.handled = none) :
    handledIn (calls ++ [c]) = handledIn calls := by
  simp [handledIn,h]

theorem Trace.handled_lt_attempting {event : E} {position : Uuid} {n : ℕ}
    (h : Trace maxRetryAttempts calls (.attempting event position n)) :
    ∀ q ∈ handledIn calls, q < position := by
  generalize hstatus : Status.attempting event position n = status at h
  induction h generalizing n with
  | deliver _ hlater =>
    cases hstatus
    intro q hq
    obtain ⟨c,hc,rfl⟩ := position_of_mem_handledIn hq
    exact hlater c hc
  | retry _ _ ih =>
    cases hstatus
    rw [handledIn_concat_none rfl]
    exact ih rfl
  | _ => cases hstatus

theorem Trace.handled_lt_gaveUp {event : E} {position : Uuid}
    (h : Trace maxRetryAttempts calls (.gaveUp event position)) :
    ∀ q ∈ handledIn calls, q < position := by
  cases h with
  | fatal htrace | exhausted htrace =>
    rw [handledIn_concat_none rfl]
    exact htrace.handled_lt_attempting

def Status.NotGivenUp (maxRetryAttempts : ℕ) (calls : List (ProjectorCall E)) :
    Status E → Prop
  | .between | .attempting .. => ∀ c ∈ calls, ¬c.GivesUp maxRetryAttempts
  | .gaveUp _ position => ∀ c ∈ calls, c.GivesUp maxRetryAttempts → c.position = position

theorem Trace.notGivenUp (h : Trace maxRetryAttempts calls status) :
    status.NotGivenUp maxRetryAttempts calls := by
  induction h with
  | nil => exact fun c hc => absurd hc List.not_mem_nil
  | deliver _ _ ih => exact ih
  | applied _ ih | skip _ ih =>
    refine List.forall_mem_append.mpr ⟨ih,?_⟩
    simp [ProjectorCall.GivesUp]
  | retry _ hlt ih =>
    refine List.forall_mem_append.mpr ⟨ih,?_⟩
    simpa [ProjectorCall.GivesUp] using hlt
  | fatal _ ih | exhausted _ _ ih =>
    refine List.forall_mem_append.mpr ⟨fun c hc hgives => absurd hgives (ih c hc),?_⟩
    simp [ProjectorCall.position]

end Trace

section Pipeline

variable {max : ℕ} {start : Option Uuid}

/-- Where the calls stand in each phase; a run that gave up on an event ended with an error, and
started before that event. -/
def StandsAt (start : Option Uuid) (max : ℕ) (calls : List (ProjectorCall E))
    (pending : ProjectionStep) : ProjectionPhase E X → Prop
  | .awaitingEventRetrySleep events eventIndex retryCount _ _ =>
    ∃ event position rest, events.drop eventIndex = (event,position) :: rest ∧
      IsAfter start position ∧ Trace max calls (.attempting event position retryCount)
  | .done => Trace max calls .between ∨
      ∃ event position, Trace max calls (.gaveUp event position) ∧ IsAfter start position ∧
        ∃ e, pending = .done (.error e)
  | _ => Trace max calls .between

/-- Ready for the rest of a page: at its first event, or behind the last one. -/
def Ready (max : ℕ) (calls : List (ProjectorCall E)) (retryCount : ℕ) :
    List (E × Uuid) → Prop
  | [] => Trace max calls .between
  | (event,position) :: _ => Trace max calls (.attempting event position retryCount)

structure Attempted (start : Option Uuid) (p : ProjectionPipeline P E X Err)
    (r : ProjectionPipeline P E X Err × ProjectionStep) : Prop where
  retryConfig : r.1.eventRetryConfig = p.eventRetryConfig
  store : r.1.hasCheckpointStore = p.hasCheckpointStore
  stands : StandsAt start p.eventRetryConfig.maxRetryAttempts r.1.calls r.2 r.1.phase

theorem Attempted.of_eq {p p' : ProjectionPipeline P E X Err}
    {r : ProjectionPipeline P E X Err × ProjectionStep} (h : Attempted start p' r)
    (hconfig : p'.eventRetryConfig = p.eventRetryConfig)
    (hstore : p'.hasCheckpointStore = p.hasCheckpointStore) : Attempted start p r :=
  ⟨h.retryConfig.trans hconfig,h.store.trans hstore,hconfig ▸ h.stands⟩

/-- Between two events the next one is ready: it lies behind all that was settled. -/
theorem ready_next {calls : List (ProjectorCall E)} {remaining : List (E × Uuid)}
    (htrace : Trace max calls .between)
    (hascending : (handledIn calls ++ remaining.map Prod.snd).Pairwise (· < ·)) :
    Ready max calls 0 remaining := by
  cases remaining with
  | nil => exact htrace
  | cons e remaining =>
    refine .deliver htrace fun c hc => ?_
    exact (List.pairwise_append.mp hascending).2.2 _ (htrace.behind c hc) _ (by simp)

theorem Processes.attempted {events remaining : List (E × Uuid)} {i n : ℕ} {cursor : Option Uuid}
    {ctx : X} {p : ProjectionPipeline P E X Err}
    {r : ProjectionPipeline P E X Err × ProjectionStep}
    (h : ProjectionPipeline.Processes events remaining i n cursor ctx p r)
    (hremaining : events.drop i = remaining)
    (hready : Ready p.eventRetryConfig.maxRetryAttempts p.calls n remaining)
    (hascending : (handledIn p.calls ++ remaining.map Prod.snd).Pairwise (· < ·))
    (hafter : ∀ e ∈ remaining, IsAfter start e.2) : Attempted start p r := by
  -- what is left once a call has settled the event
  have hsettled : ∀ {calls : List (ProjectorCall E)} {e : E × Uuid} {remaining : List (E × Uuid)}
      {c : ProjectorCall E}, c.handled = some e →
      (handledIn calls ++ (e :: remaining).map Prod.snd).Pairwise (· < ·) →
      (handledIn (calls ++ [c]) ++ remaining.map Prod.snd).Pairwise (· < ·) := by
    intro calls e remaining c hc hascending
    simpa [handledIn,hc] using hascending
  induction h with
  | ended => exact ⟨rfl,rfl,.inl hready⟩
  | pollSleep => exact ⟨rfl,rfl,hready⟩
  | @applied _ event position _ _ _ _ _ _ _ _ _ ih =>
    have hnext := hsettled (c := .applied event position) rfl hascending
    refine (ih (ProjectionPipeline.drop_succ_of_drop_eq hremaining)
      (ready_next (Trace.applied hready) hnext) hnext fun e he => ?_).of_eq rfl rfl
    exact hafter e (List.mem_cons_of_mem _ he)
  | save => exact ⟨rfl,rfl,Trace.applied hready⟩
  | @fatal p event position =>
    exact ⟨rfl,rfl,.inr ⟨event,position,.fatal hready,hafter _ List.mem_cons_self,_,rfl⟩⟩
  | @skipped _ event position _ _ n _ _ _ _ _ _ ih =>
    have hnext := hsettled (c := .failed event position n .skip) rfl hascending
    refine (ih (ProjectionPipeline.drop_succ_of_drop_eq hremaining)
      (ready_next (Trace.skip hready) hnext) hnext fun e he => ?_).of_eq rfl rfl
    exact hafter e (List.mem_cons_of_mem _ he)
  | skipSave => exact ⟨rfl,rfl,Trace.skip hready⟩
  | @exhausted p event position _ _ _ _ _ _ _ hmax =>
    exact ⟨rfl,rfl,.inr ⟨event,position,.exhausted hready hmax,hafter _ List.mem_cons_self,_,rfl⟩⟩
  | @retrySleep p event position remaining _ _ _ _ _ _ _ hlt =>
    exact ⟨rfl,rfl,event,position,remaining,hremaining,hafter _ List.mem_cons_self,
      .retry hready hlt⟩

theorem ascending_positions {log l remaining : List (E × Uuid)} (hlog : Ascending log)
    (hpre : l ++ remaining <+: eventsAfter log start) :
    (l.map Prod.snd ++ remaining.map Prod.snd).Pairwise (· < ·) := by
  rw [← List.map_append,List.pairwise_map]
  exact (ascending_eventsAfter hlog start).sublist hpre.sublist

theorem processFrom_attempted {log : List (E × Uuid)} (hlog : Ascending log)
    {p : ProjectionPipeline P E X Err} {events : List (E × Uuid)} {eventIndex retryCount : ℕ}
    (lastCheckpoint : Option Uuid) (ctx : X)
    (hpre : p.handled ++ events.drop eventIndex <+: eventsAfter log start)
    (hready : Ready p.eventRetryConfig.maxRetryAttempts p.calls retryCount
      (events.drop eventIndex)) :
    Attempted start p (p.processFrom events eventIndex retryCount lastCheckpoint ctx) :=
  Processes.attempted (ProjectionPipeline.stepProcessing_processes ..) rfl hready
    (ascending_positions hlog hpre) fun _ he =>
      (mem_eventsAfter.mp (hpre.subset (List.mem_append_right _ he))).2

theorem processFrom_next {log : List (E × Uuid)} (hlog : Ascending log)
    {p : ProjectionPipeline P E X Err} {events : List (E × Uuid)} {eventIndex : ℕ}
    (lastCheckpoint : Option Uuid) (ctx : X)
    (hpre : p.handled ++ events.drop eventIndex <+: eventsAfter log start)
    (htrace : Trace p.eventRetryConfig.maxRetryAttempts p.calls .between) :
    Attempted start p (p.processFrom events eventIndex 0 lastCheckpoint ctx) :=
  processFrom_attempted hlog _ _ hpre (ready_next htrace (ascending_positions hlog hpre))

theorem resume_attempted {log : List (E × Uuid)} {saved : Option Uuid} {r : Running P E X Err}
    (hlog : Ascending log) (hinv : RunInv log saved r)
    (h : StandsAt r.start r.pipeline.eventRetryConfig.maxRetryAttempts r.pipeline.calls r.pending
      r.pipeline.phase)
    {res : ProjectionEffectResult E} (ha : Answers log saved r.pending res) :
    Attempted r.start r.pipeline (r.pipeline.resume res) := by
  have hpre := hinv.handled_prefix
  obtain ⟨p,pending,start⟩ := r
  obtain ⟨hfits,horder,hcursor,-⟩ := hinv
  simp only at hfits horder hcursor h ha hpre ⊢
  unfold ProjectionPipeline.resume
  -- one case for each phase that waits for a result
  generalize hphase : p.phase = phase at hfits horder hcursor h
  cases hfits with
  | load =>
    cases ha with
    | load error =>
    cases error with
    | none => exact ⟨rfl,rfl,h⟩
    | some e => exact ⟨rfl,rfl,.inl h⟩
  | @read _ c ctx _ =>
    cases ha with
    | read error =>
    cases error with
    | none => exact processFrom_next hlog _ _ (handled_append_readPage hlog hpre (hcursor _ rfl)) h
    | some e =>
      simp only [result,ProjectionPipeline.resumePollFailure]
      split_ifs
      · exact ⟨rfl,rfl,.inl h⟩
      · exact ⟨rfl,rfl,h⟩
  | save | skipSave =>
    cases ha
    exact processFrom_next hlog _ _ horder h
  | retrySleep =>
    cases ha
    obtain ⟨event,position,rest,hdrop,-,htrace⟩ := h
    refine processFrom_attempted hlog _ _ horder ?_
    rw [hdrop]
    exact htrace
  | pollFailureSleep | pollSleep =>
    cases ha
    exact ⟨rfl,rfl,h⟩
  | done => cases ha

end Pipeline

section World

variable {projector : Projector P E X Err} {first : Option Uuid} {w : World P E X Err}

/-- The checkpoint of a run is where it started or an event that it settled. -/
def SavedBy (saved : Option Uuid) (r : Running P E X Err) : Prop :=
  r.pipeline.hasCheckpointStore = true →
    saved = r.start ∨ ∃ q ∈ handledIn r.pipeline.calls, saved = some q

structure RetryInv (saved : Option Uuid) (r : Running P E X Err) : Prop where
  stands : StandsAt r.start r.pipeline.eventRetryConfig.maxRetryAttempts r.pipeline.calls
    r.pending r.pipeline.phase
  saved : SavedBy saved r

variable (projector w) in
theorem retryInv_begin (setup : Setup P) : RetryInv w.saved (w.begin projector setup) := by
  obtain ⟨self,hasStore,pollMode,pollConfig,eventRetryConfig⟩ := setup
  cases hasStore with
  | false => exact ⟨.nil,fun h => nomatch h⟩
  | true => exact ⟨.nil,fun _ => .inl rfl⟩

theorem savedBy_savedAfter {log : List (E × Uuid)} {saved : Option Uuid} {r : Running P E X Err}
    (hinv : RunInv log saved r) (h : SavedBy saved r) (persisted : Bool) :
    SavedBy (savedAfter saved r.pending persisted) r := by
  intro hstore
  have hfits := hinv.fits
  have hcursor := hinv.cursor
  have hlast : r.pipeline.lastHandled r.start = r.start ∨
      ∃ q ∈ handledIn r.pipeline.calls, r.pipeline.lastHandled r.start = some q := by
    rw [ProjectionPipeline.lastHandled]
    rcases List.eq_nil_or_concat r.pipeline.handled with hnil | ⟨l,e,hconcat⟩
    · exact .inl (by simp [hnil])
    · refine .inr ⟨e.2,?_,by simp [hconcat]⟩
      exact List.mem_map_of_mem (hconcat ▸ by simp : e ∈ r.pipeline.handled)
  unfold savedAfter
  generalize r.pending = pending at hfits
  generalize r.pipeline.phase = phase at hfits hcursor
  cases hfits with
  | save | skipSave =>
    cases persisted with
    | true => simpa [hcursor _ rfl] using hlast
    | false => exact h hstore
  | _ => exact h hstore

theorem RetryInv.resume {log : List (E × Uuid)} {saved : Option Uuid} {r : Running P E X Err}
    (hlog : Ascending log) (hinv : RunInv log saved r) (h : RetryInv saved r)
    {res : ProjectionEffectResult E} (ha : Answers log saved r.pending res) (persisted : Bool) :
    RetryInv (savedAfter saved r.pending persisted) (r.resume res) := by
  obtain ⟨hconfig,hstore,hstands⟩ := resume_attempted hlog hinv h.stands ha
  have hkeeps := (hinv.resume hlog ha saved).2
  refine ⟨?_,fun hhas => ?_⟩
  · show StandsAt r.start _ (r.pipeline.resume res).1.calls (r.pipeline.resume res).2
      (r.pipeline.resume res).1.phase
    exact hconfig ▸ hstands
  · rcases savedBy_savedAfter hinv h.saved persisted (hstore ▸ hhas) with hstart | ⟨q,hq,hsaved⟩
    · exact .inl hstart
    · exact .inr ⟨q,(hkeeps.map Prod.snd).subset hq,hsaved⟩

theorem retryInv_of_reachable (h : Runs.Reachable (system projector first) w) :
    ∀ r, w.run = some r → RetryInv w.saved r := by
  refine (Runs.ReachableBy.invariant
    (I := fun w => WorldInv first w ∧ ∀ r, w.run = some r → RetryInv w.saved r) ?_ ?_ h).2
  · intro w hinit
    exact ⟨worldInv_of_reachable (.init hinit),by simp [hinit.2.2.1]⟩
  · rintro w l w' ⟨hw,hretry⟩ - hstep
    refine ⟨hw.step hstep,?_⟩
    obtain ⟨setup,-,rfl⟩ | ⟨r,persisted,-,rfl⟩ | ⟨r,res,persisted,hrun,ha,rfl⟩ | ⟨e,-,rfl⟩ :=
      World.step_cases hstep
    · rintro _ ⟨⟩
      exact retryInv_begin projector w setup
    · rintro _ ⟨⟩
    · rintro _ ⟨⟩
      exact (hretry r hrun).resume hw.ascending (hw.run r hrun) ha persisted
    · exact hretry

theorem StandsAt.of_givesUp {start : Option Uuid} {max : ℕ} {calls : List (ProjectorCall E)}
    {pending : ProjectionStep} {phase : ProjectionPhase E X}
    (h : StandsAt start max calls pending phase) {c : ProjectorCall E} (hc : c ∈ calls)
    (hgives : c.GivesUp max) :
    (∃ e, pending = .done (.error e)) ∧ IsAfter start c.position ∧
      ∃ event, Trace max calls (.gaveUp event c.position) := by
  cases phase with
  | awaitingEventRetrySleep =>
    obtain ⟨event,position,rest,-,-,htrace⟩ := h
    exact absurd hgives (htrace.notGivenUp c hc)
  | done =>
    rcases h with htrace | ⟨event,position,htrace,hafter,hdone⟩
    · exact absurd hgives (htrace.notGivenUp c hc)
    · obtain rfl := htrace.notGivenUp c hc hgives
      exact ⟨hdone,hafter,event,htrace⟩
  | _ =>
    have htrace : Trace max calls .between := h
    exact absurd hgives (htrace.notGivenUp c hc)

theorem StandsAt.trace {start : Option Uuid} {max : ℕ} {calls : List (ProjectorCall E)}
    {pending : ProjectionStep} {phase : ProjectionPhase E X}
    (h : StandsAt start max calls pending phase) : ∃ status, Trace max calls status := by
  cases phase with
  | awaitingEventRetrySleep =>
    obtain ⟨event,position,rest,-,-,htrace⟩ := h
    exact ⟨_,htrace⟩
  | done =>
    rcases h with htrace | ⟨event,position,htrace,-⟩
    · exact ⟨_,htrace⟩
    · exact ⟨_,htrace⟩
  | _ => exact ⟨_,h⟩

/-- Retries are bounded for each event: it is applied at most once more than the configured
retries, with the retry counts from zero on; events take their turns; and a run that gives up on
one ends with an error, with its checkpoint before that event. -/
theorem event_retries_bounded (h : Runs.Reachable (system projector first) w)
    {r : Running P E X Err} (hrun : w.run = some r) :
    Bounded r.pipeline.eventRetryConfig.maxRetryAttempts r.pipeline.calls ∧
    InTurn r.pipeline.calls ∧
    ∀ c ∈ r.pipeline.calls, c.GivesUp r.pipeline.eventRetryConfig.maxRetryAttempts →
      (∃ e, r.pending = .done (.error e)) ∧
      (r.pipeline.hasCheckpointStore = true → ∀ q, w.saved = some q → q < c.position) := by
  obtain ⟨hstands,hsaved⟩ := retryInv_of_reachable h r hrun
  obtain ⟨status,htrace⟩ := hstands.trace
  refine ⟨htrace.bounded,htrace.inTurn,fun c hc hgives => ?_⟩
  obtain ⟨hdone,hafter,event,hgaveUp⟩ := hstands.of_givesUp hc hgives
  refine ⟨hdone,fun hstore q hq => ?_⟩
  rcases hsaved hstore with hstart | ⟨q',hq',hsome⟩
  · rw [← hstart,hq] at hafter
    exact hafter
  · obtain rfl : q = q' := Option.some.inj (hq.symm.trans hsome)
    exact hgaveUp.handled_lt_gaveUp q hq'

/-- Every deposit is refused: the first one skipped, the second to be retried. -/
def refusing : Projector ℕ ℕ Unit String where
  name := "refusing"
  eventTypeName := "Deposited"
  defaultContext := ()
  apply sum _ _ ctx := (.error "refused",sum,ctx)
  onError sum failure := (if failure.position < 20 then .skip else .retry,sum)

def refusingSetup : Setup ℕ :=
  { totalSetup .batch true with eventRetryConfig := { maxRetryAttempts := 2 } }

/-- One skip, then three attempts; the checkpoint stays behind the skipped event. -/
theorem event_retries_bounded_refusing :
    ∃ w r, Runs.exec (system refusing none) ⟨[(5,10),(6,20)],none,none,[]⟩
        [.restart refusingSetup,.load none,.read none,.save none true,.wake,.wake] = some w ∧
      w.run = some r ∧ r.pipeline.calls.length = 4 ∧ w.saved = some 10 ∧
      Bounded 2 r.pipeline.calls ∧ InTurn r.pipeline.calls ∧ ∃ e, r.pending = .done (.error e) := by
  have hinit : (system refusing none).init ⟨[(5,10),(6,20)],none,none,[]⟩ :=
    ⟨by simp [Ascending],rfl,rfl,rfl⟩
  obtain ⟨w,r,hw,hrun,hcalls,hsaved,hmax⟩ : ∃ w r,
      Runs.exec (system refusing none) ⟨[(5,10),(6,20)],none,none,[]⟩
        [.restart refusingSetup,.load none,.read none,.save none true,.wake,.wake] = some w ∧
      w.run = some r ∧ r.pipeline.calls = [.failed 5 10 0 .skip,.failed 6 20 0 .retry,
        .failed 6 20 1 .retry,.failed 6 20 2 .retry] ∧ w.saved = some 10 ∧
      r.pipeline.eventRetryConfig.maxRetryAttempts = 2 := ⟨_,_,rfl,rfl,rfl,rfl,rfl⟩
  obtain ⟨hbounded,hturn,hgives⟩ :=
    event_retries_bounded (Runs.Reachable.exec (.init hinit) hw) hrun
  rw [hmax] at hbounded hgives
  refine ⟨w,r,hw,hrun,by rw [hcalls]; rfl,hsaved,hbounded,hturn,?_⟩
  exact (hgives (.failed 6 20 2 .retry) (by simp [hcalls]) le_rfl).1

end World

end EventRetries
end EventCore
