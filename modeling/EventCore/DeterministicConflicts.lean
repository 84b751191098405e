import EventCore.ExecuteLoop

/-! Commands executed over a store that injects a set number of version conflicts before it lets
appends through, with an atomic counter that all of them race for. -/
namespace EventCore
namespace DeterministicConflicts

open Runs ExecuteLoop

/-- What `append_events` returns for an injected conflict. -/
def conflictStream : StreamId :=
  ⟨"deterministic-conflict",by decide,by decide,by decide,by decide⟩

def injectedConflict : EventStoreError := .versionConflict conflictStream 0 1

variable {ι Any Raw Value : Type} {E S : ι → Type}

/-- The counter, what each append under way has last seen of it, and the calls of `execute`. Kept
for the record: whose appends got an injected conflict, and which reached the inner store. -/
structure World (ι Any Raw Value : Type) (E S : ι → Type) where
  remainingConflicts : ℕ
  remaining : ι → Option ℕ
  executions : ∀ i, Execution Any Raw Value (E i) (S i)
  injected : List ι
  reached : List (ι × Except EventStoreError Unit)

/-- The steps of an append are apart from each other: a load, any number of exchanges that fail, and
one that succeeds or the append to the inner store. -/
inductive Label (ι : Type) (E : ι → Type)
  | read (i : ι) (opened : Except EventStoreError (List (Except EventStoreError (E i))))
  | slept (i : ι)
  | load (i : ι)
  | compareExchangeWeak (i : ι) (spurious : Bool) (applyJitter : ℕ → ℕ)
  | delegate (i : ι) (result : Except EventStoreError Unit) (applyJitter : ℕ → ℕ)

def Execution.appending {Any Raw Value E S : Type} (x : Execution Any Raw Value E S) : Bool :=
  match x.step with
  | .yield (.appendEvents _) => true
  | _ => false

section Dispatch

variable {Any Raw Value E S : Type} {x y : Execution Any Raw Value E S}

def answered {E : Type} : Answer E → List (Except EventStoreError Unit)
  | .appended result _ => [result]
  | _ => []

theorem appends_dispatch {answer : Answer E} (h : x.dispatch answer = some y) :
    appends y.calls = appends x.calls ++ answered answer := by
  unfold Execution.dispatch at h
  split at h
  · obtain rfl := Option.some.inj h
    simp [answered]
  · obtain rfl := Option.some.inj h
    simp [answered,appends]
  · obtain rfl := Option.some.inj h
    simp [answered]
  · cases h

end Dispatch

section System

variable [DecidableEq ι]

/-- One client's `execute` goes on with an answer. -/
def World.dispatch (w : World ι Any Raw Value E S) (i : ι) (answer : Answer (E i)) :
    Option (World ι Any Raw Value E S) :=
  ((w.executions i).dispatch answer).map fun x =>
    { w with executions := Function.update w.executions i x }

def World.step (w : World ι Any Raw Value E S) : Label ι E → Option (World ι Any Raw Value E S)
  | .read i opened => w.dispatch i (.opened opened)
  | .slept i => w.dispatch i .slept
  | .load i =>
    if Execution.appending (w.executions i) ∧ w.remaining i = none then
      some { w with remaining := Function.update w.remaining i (some w.remainingConflicts) }
    else none
  | .compareExchangeWeak i spurious applyJitter =>
    match w.remaining i with
    | some (remaining + 1) =>
      if spurious = false ∧ w.remainingConflicts = remaining + 1 then
        { w with
          remainingConflicts := remaining
          remaining := Function.update w.remaining i none
          injected := w.injected ++ [i] }.dispatch i (.appended (.error injectedConflict) applyJitter)
      else some
        { w with remaining := Function.update w.remaining i (some w.remainingConflicts) }
    | _ => none
  | .delegate i result applyJitter =>
    match w.remaining i with
    | some 0 =>
      { w with
        remaining := Function.update w.remaining i none
        reached := w.reached ++ [(i,result)] }.dispatch i (.appended result applyJitter)
    | _ => none

variable (commands : ∀ i, CommandLogic Any Raw Value (E i) (S i)) (policies : ι → RetryPolicy)
  (conflictCount : ℕ)

def start : World ι Any Raw Value E S :=
  ⟨conflictCount,fun _ => none,fun i => .start (commands i) (policies i),[],[]⟩

def system : System (World ι Any Raw Value E S) (Label ι E) where
  init w := w = start commands policies conflictCount
  step := World.step

def NoConflicts (_ : World ι Any Raw Value E S) : Label ι E → Prop
  | .delegate _ result _ => isConflict result = false
  | _ => True

/-- What an append of the client has come back with, in this order. -/
def World.results (w : World ι Any Raw Value E S) (i : ι) : List (Except EventStoreError Unit) :=
  List.replicate (w.injected.count i) (.error injectedConflict) ++
    (w.reached.filter (·.1 = i)).map Prod.snd

structure Inv (w : World ι Any Raw Value E S) : Prop where
  total : w.injected.length + w.remainingConflicts = conflictCount
  seen : ∀ i remaining, w.remaining i = some remaining → w.remainingConflicts ≤ remaining
  exhausted : w.reached ≠ [] → w.remainingConflicts = 0
  quiet : ∀ p ∈ w.reached, isConflict p.2 = false
  runs : ∀ i, Reachable (ExecuteLoop.system (commands i) (policies i)) (w.executions i)
  results : ∀ i, appends (w.executions i).calls = w.results i

variable {commands policies conflictCount} {w w' : World ι Any Raw Value E S}

theorem dispatch_cases {i : ι} {answer : Answer (E i)} (h : w.dispatch i answer = some w') :
    ∃ x, (w.executions i).dispatch answer = some x ∧
      w' = { w with executions := Function.update w.executions i x } := by
  obtain ⟨x,hx,rfl⟩ := Option.map_eq_some_iff.mp h
  exact ⟨x,hx,rfl⟩

theorem runs_update
    (hruns : ∀ i, Reachable (ExecuteLoop.system (commands i) (policies i)) (w.executions i))
    {i : ι} {answer : Answer (E i)} {x : Execution Any Raw Value (E i) (S i)}
    (hx : (w.executions i).dispatch answer = some x) (j : ι) :
    Reachable (ExecuteLoop.system (commands j) (policies j))
      (Function.update w.executions i x j) := by
  by_cases hji : j = i
  · subst hji
    rw [Function.update_self]
    exact .step (hruns j) trivial hx
  · rw [Function.update_of_ne hji]
    exact hruns j

theorem results_update {results : ι → List (Except EventStoreError Unit)}
    (hresults : ∀ i, appends (w.executions i).calls = w.results i) {i : ι} {answer : Answer (E i)}
    {x : Execution Any Raw Value (E i) (S i)} (hx : (w.executions i).dispatch answer = some x)
    (hself : results i = w.results i ++ answered answer)
    (hother : ∀ j, j ≠ i → results j = w.results j) (j : ι) :
    appends (Function.update w.executions i x j).calls = results j := by
  by_cases hji : j = i
  · subst hji
    rw [Function.update_self,appends_dispatch hx,hresults,hself]
  · rw [Function.update_of_ne hji,hresults,hother j hji]

theorem Inv.answer (h : Inv commands policies conflictCount w) {i : ι} {answer : Answer (E i)}
    (hnone : answered answer = []) (hstep : w.dispatch i answer = some w') :
    Inv commands policies conflictCount w' := by
  obtain ⟨x,hx,rfl⟩ := dispatch_cases hstep
  refine ⟨h.total,h.seen,h.exhausted,h.quiet,runs_update h.runs hx,results_update h.results hx ?_ ?_⟩
  · rw [hnone,List.append_nil]
    rfl
  · exact fun _ _ => rfl

theorem Inv.look (h : Inv commands policies conflictCount w) (i : ι) :
    Inv commands policies conflictCount
      { w with remaining := Function.update w.remaining i (some w.remainingConflicts) } := by
  refine ⟨h.total,fun j remaining hj => ?_,h.exhausted,h.quiet,h.runs,h.results⟩
  by_cases hji : j = i
  · subst hji
    simp only [Function.update_self,Option.some.injEq] at hj
    exact hj.le
  · exact h.seen j remaining ((Function.update_of_ne hji ..).symm.trans hj)

theorem Inv.inject (h : Inv commands policies conflictCount w) {i : ι} {remaining : ℕ}
    (hremaining : w.remainingConflicts = remaining + 1) {applyJitter : ℕ → ℕ}
    (hstep : World.dispatch
      { w with
        remainingConflicts := remaining
        remaining := Function.update w.remaining i none
        injected := w.injected ++ [i] } i
      (.appended (.error injectedConflict) applyJitter) = some w') :
    Inv commands policies conflictCount w' := by
  obtain ⟨x,hx,rfl⟩ := dispatch_cases hstep
  have hreached : w.reached = [] := by
    by_contra hne
    have hzero := h.exhausted hne
    omega
  have htotal := h.total
  refine ⟨?_,fun j r hj => ?_,fun hne => absurd hreached hne,h.quiet,runs_update h.runs hx,
    results_update h.results hx ?_ fun j hji => ?_⟩
  · simp only [List.length_append,List.length_singleton]
    omega
  · by_cases hji : j = i
    · subst hji
      cases (Function.update_self ..).symm.trans hj
    · have hle := h.seen j r ((Function.update_of_ne hji ..).symm.trans hj)
      simp only
      omega
  · simp [World.results,hreached,answered,List.replicate_succ']
  · simp [World.results,Ne.symm hji]

theorem Inv.delegate (h : Inv commands policies conflictCount w) {i : ι}
    (hseen : w.remaining i = some 0) {result : Except EventStoreError Unit}
    (hresult : isConflict result = false) {applyJitter : ℕ → ℕ}
    (hstep : World.dispatch
      { w with
        remaining := Function.update w.remaining i none
        reached := w.reached ++ [(i,result)] } i (.appended result applyJitter) = some w') :
    Inv commands policies conflictCount w' := by
  obtain ⟨x,hx,rfl⟩ := dispatch_cases hstep
  refine ⟨h.total,fun j r hj => ?_,fun _ => Nat.le_zero.mp (h.seen i 0 hseen),fun p hp => ?_,
    runs_update h.runs hx,results_update h.results hx ?_ fun j hji => ?_⟩
  · by_cases hji : j = i
    · subst hji
      cases (Function.update_self ..).symm.trans hj
    · exact h.seen j r ((Function.update_of_ne hji ..).symm.trans hj)
  · rcases List.mem_append.mp hp with hp | hp
    · exact h.quiet p hp
    · rw [List.mem_singleton.mp hp]
      exact hresult
  · simp [World.results,answered]
  · simp [World.results,Ne.symm hji]

theorem Inv.step (h : Inv commands policies conflictCount w) {l : Label ι E}
    (hl : NoConflicts w l) (hstep : w.step l = some w') :
    Inv commands policies conflictCount w' := by
  cases l with
  | read i opened => exact h.answer rfl hstep
  | slept i => exact h.answer rfl hstep
  | load i =>
    simp only [World.step] at hstep
    split_ifs at hstep
    obtain rfl := Option.some.inj hstep
    exact h.look i
  | compareExchangeWeak i spurious applyJitter =>
    simp only [World.step] at hstep
    split at hstep
    · split_ifs at hstep with hswap
      · exact h.inject hswap.2 hstep
      · obtain rfl := Option.some.inj hstep
        exact h.look i
    · cases hstep
  | delegate i result applyJitter =>
    simp only [World.step] at hstep
    split at hstep
    · next hseen => exact h.delegate hseen hl hstep
    · cases hstep

end System

section Outcomes

variable {Any Raw Value E S : Type} {command : CommandLogic Any Raw Value E S}
  {policy : RetryPolicy} {x : Execution Any Raw Value E S}

theorem attempts_eq_conflicts (h : Reachable (ExecuteLoop.system command policy) x)
    {attempts : ℕ+} (hstep : x.step = .done (.success attempts)) :
    (attempts : ℕ) = ((appends x.calls).filter isConflict).length + 1 := by
  obtain ⟨conflicts,current,hhist⟩ := exists_history h
  have hdoing := hhist.doing
  rw [hhist.attempts_eq hstep,hhist.appends_eq]
  rw [hstep] at hdoing
  cases hdoing with
  | succeeded => simp [isConflict,List.filter_map,Function.comp_def]
  | reading _ _ _ heq => cases heq
  | unreadable _ _ _ heq => cases heq
  | rejected _ _ _ heq => cases heq
  | appending _ _ heq => cases heq
  | outOfRetries _ _ heq => cases heq
  | failed _ _ heq => cases heq
  | sleeping _ heq => cases heq

end Outcomes

section Runs

variable [DecidableEq ι] {commands : ∀ i, CommandLogic Any Raw Value (E i) (S i)}
  {policies : ι → RetryPolicy} {conflictCount : ℕ} {w : World ι Any Raw Value E S}

theorem Inv.conflicts (h : Inv commands policies conflictCount w) (i : ι) :
    ((appends (w.executions i).calls).filter isConflict).length = w.injected.count i := by
  have hreached : ((w.reached.filter (·.1 = i)).map Prod.snd).filter isConflict = [] := by
    refine List.filter_eq_nil_iff.mpr fun result hresult => ?_
    obtain ⟨p,hp,rfl⟩ := List.mem_map.mp hresult
    simp [h.quiet p (List.mem_filter.mp hp).1]
  rw [h.results,World.results,List.filter_append,hreached]
  simp [isConflict,injectedConflict,List.filter_replicate]

/-- However commands race for the counter and its exchanges fail: the store injects exactly the
set number of conflicts before anything reaches the inner store. A call succeeds in one attempt
more than it got conflicts, and gives up, with nothing of it having reached the inner store,
when it got more than it may retry. -/
theorem conflicts_injected_exactly
    (h : ReachableBy (system commands policies conflictCount) NoConflicts w) :
    w.injected.length + w.remainingConflicts = conflictCount ∧
      (w.reached ≠ [] → w.injected.length = conflictCount) ∧
      ∀ i, w.injected.count i ≤ (policies i).maxRetries + 1 ∧
        (∀ attempts : ℕ+, (w.executions i).step = .done (.success attempts) →
          (attempts : ℕ) = w.injected.count i + 1) ∧
        (w.injected.count i = (policies i).maxRetries + 1 →
          (w.executions i).step = .done (.error (.concurrencyError (policies i).maxRetries)) ∧
            ∀ p ∈ w.reached, p.1 ≠ i) := by
  have hinv : Inv commands policies conflictCount w := by
    refine ReachableBy.invariant (I := Inv commands policies conflictCount) ?_ ?_ h
    · rintro w rfl
      exact ⟨Nat.zero_add _,by simp [start],by simp [start],by simp [start],fun _ => .init rfl,
        fun _ => rfl⟩
    · exact fun w l w' hinv hl hstep => hinv.step hl hstep
  have htotal := hinv.total
  refine ⟨htotal,fun hne => ?_,fun i => ?_⟩
  · have hzero := hinv.exhausted hne
    omega
  obtain ⟨conflicts,current,hhist⟩ := exists_history (hinv.runs i)
  have hlength := hhist.appends_length_le
  have hresults : (appends (w.executions i).calls).length =
      w.injected.count i + (w.reached.filter (·.1 = i)).length := by
    simp [hinv.results,World.results]
  refine ⟨by omega,fun attempts hdone => ?_,fun hall => ⟨?_,fun p hp hpi => ?_⟩⟩
  · rw [attempts_eq_conflicts (hinv.runs i) hdone,hinv.conflicts]
  · refine hhist.conflicts_exhausted ?_
    rw [hinv.conflicts,hall]
  · have hmem : p ∈ w.reached.filter (·.1 = i) := List.mem_filter.mpr ⟨hp,decide_eq_true hpi⟩
    have hpos := List.length_pos_of_mem hmem
    omega

end Runs


def racers (_ : Bool) : CommandLogic ℕ ℕ ℕ ℕ ℕ := Sample.topUp

def onceMore (_ : Bool) : RetryPolicy := ⟨1,.fixed 5,false⟩

/-- Two calls with one retry each race for three conflicts; an exchange of the second one fails as
it should, and one for no reason. -/
def race : List (Label (Bool) fun _ => ℕ) :=
  [.read false (.ok []),.read true (.ok []),.load false,.load true,
    .compareExchangeWeak false false id,.compareExchangeWeak true false id,
    .compareExchangeWeak true true id,.compareExchangeWeak true false id,
    .slept false,.read false (.ok []),.load false,.compareExchangeWeak false false id,
    .slept true,.read true (.ok []),.load true,.delegate true (.ok ()) id]

theorem conflicts_injected_exactly_race :
    ∃ w, exec (system racers onceMore 3) (start racers onceMore 3) race = some w ∧
      w.injected = [false,true,false] ∧ (w.executions true).step = .done (.success 2) ∧
      w.injected.length + w.remainingConflicts = 3 ∧
      (w.executions false).step = .done (.error (.concurrencyError 1)) := by
  obtain ⟨w,hw,hinjected,hdone⟩ : ∃ w,
      exec (system racers onceMore 3) (start racers onceMore 3) race = some w ∧
      w.injected = [false,true,false] ∧ (w.executions true).step = .done (.success 2) := ⟨_,rfl,rfl,rfl⟩
  have hall : AllSteps (system racers onceMore 3) NoConflicts (start racers onceMore 3) race := by
    simp [AllSteps,race,NoConflicts,isConflict]
  obtain ⟨htotal,_,hclients⟩ := conflicts_injected_exactly
    (ReachableBy.exec (.init rfl) hall hw)
  refine ⟨w,hw,hinjected,hdone,htotal,((hclients false).2.2 ?_).1⟩
  rw [hinjected]
  rfl

end DeterministicConflicts
end EventCore
