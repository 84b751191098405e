import EventCore.TransactionalProjection

/-! A catch-up cycle handles exactly what is selected up to the mark it captured, page by page,
whatever producers add meanwhile. -/
namespace EventCore
namespace DrainCycle
open Interaction ProjectionSource TransactionalRunner ProjectionDestination ProjectionRules
open RunnerLogic TransactionalProjection PagedScan

section Drain

variable {P Ev Er : Type}
variable {selects : ProjectionSelectionId → PersistedEventEnvelope P → Bool}
  {source : RunId → DeliverySourceId} {config : RunId → PostgresProjectionConfig}
  {i : RunId} {C : World P → Prop} {w : World P}

section Cycle

variable (selects source config i)

def selected (w : World P) (after : Option ℕ) (through : ℕ) : List (PersistedEventEnvelope P) :=
  (w.log (source i)).within (selects (config i).selection) after (.inclusive through)

/-- A cycle under way: `handled` and what is still selected after the cursor are together what
was selected when it began, and the run's own effects since then are those it processed. -/
structure Cycle (k₀ : Known) (start : Option ℕ) (through : ℕ) (w : World P) (k : Known)
    (after : Option ℕ) (handled : List (ℕ × EnvelopeResult)) : Prop where
  knows : Knows i k w
  idle : k.transaction = none
  told : k.told = k₀.told
  behind : ∀ a ∈ after, Passed k.progress a
  valid : (w.log (source i)).Valid
  sealed : through ≤ (w.log (source i)).sealed
  complete : (selected selects source config i w start through).map (·.position) =
    handled.map Prod.fst ++ (selected selects source config i w after through).map (·.position)
  going : ∀ h ∈ handled, h.2 ≠ .stopped
  own : ∃ applications, k.own = k₀.own ++ applications ∧ applications.map (·.position) =
    (handled.filter fun h => h.2 = .processed).map Prod.fst
  skipped : ∀ p, (p,EnvelopeResult.skipped) ∈ handled → p ∈ w.skips

variable {selects source config i}
variable {k₀ k : Known} {start after : Option ℕ} {through : ℕ}
  {handled : List (ℕ × EnvelopeResult)}

theorem selected_onward {w' : World P} (honward : Onward w w')
    (hsealed : through ≤ (w.log (source i)).sealed) (after : Option ℕ) :
    selected selects source config i w' after through =
      selected selects source config i w after through :=
  (honward.log (source i)).within_eq hsealed

theorem Cycle.onward {w' : World P} (h : Cycle selects source config i k₀ start through w k after handled)
    (honward : Onward w w') (hknows : Knows i k w') :
    Cycle selects source config i k₀ start through w' k after handled where
  knows := hknows
  idle := h.idle
  told := h.told
  behind := h.behind
  valid := honward.valid _ h.valid
  sealed := h.sealed.trans (honward.log _).sealed_le
  complete := by
    rw [selected_onward honward h.sealed,selected_onward honward h.sealed,h.complete]
  going := h.going
  own := h.own
  skipped := fun p hp => honward.skips (h.skipped p hp)

theorem Cycle.due (h : Cycle selects source config i k₀ start through w k after handled)
    {e : PersistedEventEnvelope P} {rest : List (PersistedEventEnvelope P)}
    (hnext : selected selects source config i w after through = e :: rest) :
    Due selects (source i) (config i).selection k.progress w e := by
  have hmem : e ∈ selected selects source config i w after through := by
    rw [hnext]
    exact List.mem_cons_self
  obtain ⟨hvisible,hselects,hallows,_⟩ := Log.mem_within.mp hmem
  have hthrough : e.position ≤ through := by simpa [DeliveryUpperBound.allows] using hallows
  refine ⟨hvisible,hselects,hthrough.trans h.sealed,fun f hf hsel hprogress _ => ?_⟩
  by_cases hle : f.position ≤ through
  · have hafter : After after f.position := by
      intro a ha
      obtain ⟨p,hp,hap⟩ := h.behind a ha
      exact hap.trans_lt (hprogress p hp)
    have hfmem : f ∈ selected selects source config i w after through :=
      Log.mem_within.mpr ⟨hf,hsel,by simpa [DeliveryUpperBound.allows] using hle,hafter⟩
    exact Log.head_le_of_within h.valid hnext hfmem
  · omega

theorem Cycle.step (h : Cycle selects source config i k₀ start through w k after handled)
    {w' : World P} (honward : Onward w w') {e : PersistedEventEnvelope P}
    {rest : List (PersistedEventEnvelope P)}
    (hnext : selected selects source config i w after through = e :: rest)
    {r : EnvelopeResult} (hr : r ≠ .stopped) (hout : Outcome source config i k e.position w' r) :
    ∃ k', Cycle selects source config i k₀ start through w' k' (some e.position)
      (handled ++ [(e.position,r)]) := by
  have hrest : selected selects source config i w (some e.position) through = rest :=
    Log.within_after h.valid hnext
  have hcomplete : (selected selects source config i w' start through).map (·.position) =
      (handled ++ [(e.position,r)]).map Prod.fst ++
        (selected selects source config i w' (some e.position) through).map (·.position) := by
    rw [selected_onward honward h.sealed,selected_onward honward h.sealed,h.complete,hnext,hrest]
    simp
  have hsealed := h.sealed.trans (honward.log (source i)).sealed_le
  have hvalid := honward.valid _ h.valid
  have hgoing : ∀ x ∈ handled ++ [(e.position,r)], x.2 ≠ .stopped := by
    intro x hx
    rcases List.mem_append.mp hx with hx | hx
    · exact h.going x hx
    · obtain rfl := List.mem_singleton.mp hx
      exact hr
  obtain ⟨applications,hown,hpositions⟩ := h.own
  have hfilter : ∀ r' : EnvelopeResult, ((handled ++ [(e.position,r')]).filter
      fun x => x.2 = .processed).map Prod.fst =
      (handled.filter fun x => x.2 = .processed).map Prod.fst ++
        if r' = .processed then [e.position] else [] := by
    intro r'
    by_cases hr' : r' = .processed <;> simp [List.filter_append,hr']
  have hskipped : r = .skipped → e.position ∈ w'.skips → ∀ p,
      (p,EnvelopeResult.skipped) ∈ handled ++ [(e.position,r)] → p ∈ w'.skips := by
    intro _ hskip p hp
    rcases List.mem_append.mp hp with hp | hp
    · exact honward.skips (h.skipped p hp)
    · obtain ⟨rfl,_⟩ := Prod.mk.inj (List.mem_singleton.mp hp)
      exact hskip
  have hothers : r ≠ .skipped → ∀ p,
      (p,EnvelopeResult.skipped) ∈ handled ++ [(e.position,r)] → p ∈ w'.skips := by
    intro hne p hp
    rcases List.mem_append.mp hp with hp | hp
    · exact honward.skips (h.skipped p hp)
    · exact absurd (Prod.mk.inj (List.mem_singleton.mp hp)).2.symm hne
  cases r with
  | processed =>
    obtain ⟨a,ha,hk'⟩ := hout
    refine ⟨_,hk',rfl,h.told,?_,hvalid,hsealed,hcomplete,hgoing,⟨applications ++ [a],?_,?_⟩,
      hothers (by simp)⟩
    · intro b hb
      obtain rfl := Option.some.inj hb
      exact ⟨_,rfl,le_rfl⟩
    · rw [hown,List.append_assoc]
    · rw [List.map_append,hpositions,hfilter]
      simp [ha]
  | skipped =>
    obtain ⟨hskip,hk'⟩ := hout
    refine ⟨_,hk',rfl,h.told,?_,hvalid,hsealed,hcomplete,hgoing,⟨applications,hown,?_⟩,
      hskipped rfl hskip⟩
    · intro b hb
      obtain rfl := Option.some.inj hb
      exact ⟨_,rfl,le_rfl⟩
    · rw [hpositions,hfilter]
      simp
  | suppressed =>
    obtain ⟨hpassed,hk'⟩ := hout
    refine ⟨k,hk',h.idle,h.told,?_,hvalid,hsealed,hcomplete,hgoing,⟨applications,hown,?_⟩,
      hothers (by simp)⟩
    · intro b hb
      obtain rfl := Option.some.inj hb
      exact hpassed
    · rw [hpositions,hfilter]
      simp
  | stopped => exact absurd rfl hr

/-- A cycle that a projector stopped before a pending position. -/
def StoppedAt (selects : ProjectionSelectionId → PersistedEventEnvelope P → Bool)
    (source : RunId → DeliverySourceId) (config : RunId → PostgresProjectionConfig) (i : RunId)
    (k₀ : Known) (start : Option ℕ) (through : ℕ) (w : World P) (position : ℕ)
    (handled : List (ℕ × EnvelopeResult)) : Prop :=
  ∃ k after before e rest, handled = before ++ [(position,.stopped)] ∧
    Cycle selects source config i k₀ start through w k after before ∧
    selected selects source config i w after through = e :: rest ∧ e.position = position ∧
    Pending source config i w.progress position

end Cycle

section Page

variable {k₀ k : Known} {start : Option ℕ} {through : ℕ} {drained : Drained}
  {handled earlier : List (ℕ × EnvelopeResult)}

/-- What a page, or a whole cycle, leaves behind; `none` is a page that was handled to its end. -/
def Drains (selects : ProjectionSelectionId → PersistedEventEnvelope P → Bool)
    (source : RunId → DeliverySourceId) (config : RunId → PostgresProjectionConfig) (i : RunId)
    (k₀ : Known) (start : Option ℕ) (through : ℕ) (earlier : List (ℕ × EnvelopeResult))
    (w : World P) (outcome : Option DrainCycleOutcome) (drained : Drained) : Prop :=
  ∃ handled, drained.handled = earlier ++ handled ∧
    match outcome with
    | some (.stopped position) =>
      StoppedAt selects source config i k₀ start through w position handled
    | some (.caughtUp reached) => reached = some through ∧
      selected selects source config i w drained.after through = [] ∧
      ∃ k, Cycle selects source config i k₀ start through w k drained.after handled
    | none => ∃ k, Cycle selects source config i k₀ start through w k drained.after handled

theorem Drains.told {outcome : Option DrainCycleOutcome}
    (h : Drains selects source config i k₀ start through earlier w outcome drained) :
    w.reported i = k₀.told := by
  have hcycle : ∀ {k after handled},
      Cycle selects source config i k₀ start through w k after handled → w.reported i = k₀.told :=
    fun h => h.knows.told.trans h.told
  obtain ⟨handled,_,h⟩ := h
  match outcome,h with
  | some (.stopped _),⟨_,_,_,_,_,_,h,_⟩ => exact hcycle h
  | some (.caughtUp _),⟨_,_,_,h⟩ => exact hcycle h
  | none,⟨_,h⟩ => exact hcycle h

theorem spec_drainPage {envelopes : List (PersistedEventEnvelope P)}
    (hcycle : Cycle selects source config i k₀ start through w k drained.after handled)
    (hearlier : drained.handled = earlier ++ handled)
    (hpage : envelopes <+: selected selects source config i w drained.after through) :
    Spec selects source config i C (fun w' r => Onward w w' ∧
      Drains selects source config i k₀ start through earlier w' r.1 r.2 ∧
      (r.1 = none → drained.handled.length + envelopes.length ≤ r.2.handled.length) ∧
      ∀ reached, r.1 ≠ some (.caughtUp reached)) w
      (drainPage (source i) (config i) envelopes drained : Runner P Ev Er _) := by
  induction envelopes generalizing w k drained handled with
  | nil =>
    exact Spec.pure ⟨.refl w,⟨handled,hearlier,k,hcycle⟩,fun _ => le_rfl,fun _ => by simp⟩
  | cons e envelopes ih =>
    obtain ⟨rest,hrest⟩ := hpage
    have hnext : selected selects source config i w drained.after through =
        e :: (envelopes ++ rest) := hrest.symm
    refine Spec.bind ((spec_processEnvelope hcycle.knows hcycle.idle (hcycle.due hnext)).mono
      fun w₁ r ⟨h₁,hout⟩ => ?_)
    have hnote : (drained.note e.position r).handled =
        earlier ++ (handled ++ [(e.position,r)]) := by
      simp [Drained.note,hearlier]
    by_cases hr : r = .stopped
    · subst hr
      obtain ⟨hpending,hknows,hprogress⟩ := hout
      rw [if_pos rfl]
      refine Spec.pure ⟨h₁,⟨_,hnote,k,drained.after,handled,e,envelopes ++ rest,rfl,
        hcycle.onward h₁ hknows,?_,rfl,hprogress ▸ hpending⟩,by simp,by simp⟩
      rw [selected_onward h₁ hcycle.sealed,hnext]
    · rw [if_neg hr]
      obtain ⟨k',hcycle'⟩ := hcycle.step h₁ hnext hr hout
      have hrest' : envelopes <+:
          selected selects source config i w₁ (some e.position) through := by
        rw [selected_onward h₁ hcycle.sealed,
          show selected selects source config i w (some e.position) through = envelopes ++ rest from
            Log.within_after hcycle.valid hnext]
        exact List.prefix_append _ _
      refine (ih hcycle' hnote hrest').mono
        fun w₂ r' ⟨h₂,hdrains,hlength,hreached⟩ => ⟨h₁.trans h₂,hdrains,fun hnone => ?_,hreached⟩
      have := hlength hnone
      simp only [Drained.note,List.length_append,List.length_cons] at this ⊢
      omega

/-- Every page but the last handles an envelope, so that the pages are no more than what was
selected when the cycle began, and one. -/
theorem spec_drainPages {pages bound : ℕ}
    (hcycle : Cycle selects source config i k₀ start through w k drained.after handled)
    (hearlier : drained.handled = earlier ++ handled) (hbound : bound ≤ handled.length + pages) :
    Spec selects source config i
      (fun w' => bound ≤ (selected selects source config i w' start through).length ∧
        w'.reported i = k₀.told)
      (fun w' r => Onward w w' ∧
        Drains selects source config i k₀ start through earlier w' (some r.1) r.2) w
      (drainPages (source i) (config i) through pages drained : Runner P Ev Er _) := by
  induction pages generalizing w k drained handled with
  | zero =>
    refine Spec.cut ⟨?_,hcycle.knows.told.trans hcycle.told⟩
    have hlength := congrArg List.length hcycle.complete
    simp only [List.length_map,List.length_append] at hlength
    omega
  | succ pages ih =>
    have hread : Spec selects source config i
        (fun w' => bound ≤ (selected selects source config i w' start through).length ∧
          w'.reported i = k₀.told)
        (fun w' page => Onward w w' ∧
          Cycle selects source config i k₀ start through w' k drained.after handled ∧
          page <+: selected selects source config i w' drained.after through ∧
          (page = [] → selected selects source config i w' drained.after through = [])) w
        ((ask (.readEnvelopes (source i) (config i).selection drained.after (.inclusive through)
          (config i).batchSize) : Runner P Ev Er _) >>= orThrow .source) := by
      refine Spec.bind (Spec.ask fun w' hrely hinv c r w'' hperform => ?_)
      cases c with
      | page size =>
        obtain ⟨page,hpage,heq⟩ := Option.map_eq_some_iff.mp hperform
        obtain ⟨rfl,rfl⟩ := Prod.mk.inj heq
        obtain ⟨hpre,_,hempty⟩ := Log.readEnvelopes_eq_some hpage
        refine ⟨hinv,(Quiet.refl hinv.holder i).guar,Spec.pure ⟨hrely.onward,
          hcycle.onward hrely.onward (hcycle.knows.rely hrely),hpre,fun hnil => ?_⟩⟩
        exact (hempty hnil).resolve_left (config i).batchSize_pos.ne'
      | fail =>
        obtain ⟨rfl,rfl⟩ := Prod.mk.inj (Option.some.inj hperform)
        exact ⟨hinv,(Quiet.refl hinv.holder i).guar,Spec.throw _⟩
      | _ => cases hperform
    refine Spec.bind (hread.mono fun w₁ page ⟨h₁,hcycle₁,hpage,hempty⟩ => ?_)
    by_cases hnil : page = []
    · rw [if_pos hnil]
      exact Spec.pure ⟨h₁,handled,hearlier,rfl,hempty hnil,k,hcycle₁⟩
    · rw [if_neg hnil]
      refine Spec.bind ((spec_drainPage hcycle₁ hearlier hpage).mono
        fun w₂ r ⟨h₂,hdrains,hlength,hreached⟩ => ?_)
      match r with
      | (some outcome,drained') => exact Spec.pure ⟨h₁.trans h₂,hdrains⟩
      | (none,drained') =>
        obtain ⟨handled',hearlier',k',hcycle'⟩ := hdrains
        have hpos := List.length_pos_of_ne_nil hnil
        have hgrow : drained.handled.length + page.length ≤ drained'.handled.length := hlength rfl
        rw [hearlier,show drained'.handled = earlier ++ handled' from hearlier',
          List.length_append,List.length_append] at hgrow
        exact (ih hcycle' hearlier' (by omega)).mono
          fun w₃ r ⟨h₃,h⟩ => ⟨(h₁.trans h₂).trans h₃,h⟩

end Page

section Whole

variable {k : Known} {drained : Drained}

/-- What is left of a cycle that returned: with no mark there was nothing to do, else it drained
up to the mark it was told. -/
def Returned (selects : ProjectionSelectionId → PersistedEventEnvelope P → Bool)
    (source : RunId → DeliverySourceId) (config : RunId → PostgresProjectionConfig) (i : RunId)
    (k : Known) (drained : Drained) (w : World P) (outcome : DrainCycleOutcome)
    (drained' : Drained) : Prop :=
  match w.reported i with
  | none => outcome = .caughtUp none ∧ drained' = drained ∧ Knows i { k with told := none } w
  | some through => Drains selects source config i { k with told := some through } drained.after
      through drained.handled w (some outcome) drained'

theorem spec_drainCycle (pages : ℕ) (hk : Knows i k w) (hidle : k.transaction = none)
    (hbehind : ∀ a ∈ drained.after, Passed k.progress a) :
    Spec selects source config i
      (fun w' => ∃ through, w'.reported i = some through ∧
        pages ≤ (selected selects source config i w' drained.after through).length)
      (fun w' r => Onward w w' ∧ Returned selects source config i k drained w' r.1 r.2) w
      (drainCycle (source i) (config i) pages drained : Runner P Ev Er _) := by
  have hmark : Spec selects source config i
      (fun w' => ∃ through, w'.reported i = some through ∧
        pages ≤ (selected selects source config i w' drained.after through).length)
      (fun w' mark => Onward w w' ∧ Knows i { k with told := mark } w' ∧
        (w'.log (source i)).Valid ∧ ∀ through ∈ mark, through ≤ (w'.log (source i)).sealed) w
      ((ask (.highWatermark (source i)) : Runner P Ev Er _) >>= orThrow .source) := by
    refine Spec.bind (Spec.ask fun w' hrely hinv c r w'' hperform => ?_)
    cases c with
    | ok =>
      obtain ⟨rfl,rfl⟩ := Prod.mk.inj (Option.some.inj hperform)
      have honward : Onward w' (w'.reporting i (source i)) :=
        log_update_onward (Log.reporting_grows _) Log.reporting_valid _
      have hk' := hk.rely hrely
      refine ⟨hinv.keep honward hinv.holder rfl rfl rfl,
        ⟨honward,fun _ _ => rfl,fun _ _ h => h,fun j hij => Function.update_of_ne hij.symm _ _,
          ⟨[],by simp [World.reporting],by simp⟩,.inl ⟨rfl,rfl⟩⟩,
        Spec.pure ⟨hrely.onward.trans honward,⟨hk'.own,Function.update_self _ _ _,hk'.held⟩,?_,?_⟩⟩
      · exact honward.valid _ (hinv.logs _)
      · intro through hthrough
        simpa [World.reporting] using Log.highWatermark_le_sealed hthrough
    | fail =>
      obtain ⟨rfl,rfl⟩ := Prod.mk.inj (Option.some.inj hperform)
      exact ⟨hinv,(Quiet.refl hinv.holder i).guar,Spec.throw _⟩
    | _ => cases hperform
  refine Spec.bind (hmark.mono fun w₁ mark ⟨h₁,hk₁,hvalid,hsealed⟩ => ?_)
  match mark with
  | none =>
    refine Spec.pure ⟨h₁,?_⟩
    rw [Returned,hk₁.told]
    exact ⟨rfl,rfl,hk₁⟩
  | some through =>
    have hcycle : Cycle selects source config i { k with told := some through } drained.after
        through w₁ { k with told := some through } drained.after [] :=
      ⟨hk₁,hidle,rfl,hbehind,hvalid,hsealed through rfl,by simp,by simp,⟨[],by simp,by simp⟩,by simp⟩
    have hearlier : drained.handled = drained.handled ++ [] := (List.append_nil _).symm
    have hbound : pages ≤ ([] : List (ℕ × EnvelopeResult)).length + pages := by simp
    refine ((spec_drainPages hcycle hearlier hbound).mono_cut
      fun w₂ ⟨hpages,htold⟩ => ⟨through,htold,hpages⟩).mono fun w₂ r ⟨h₂,hdrains⟩ => ?_
    refine ⟨h₁.trans h₂,?_⟩
    rw [Returned,hdrains.told]
    exact hdrains

/-- A run cut after one of its cycles: what this cycle began with and what it came to. -/
def untilCycle (source : DeliverySourceId) (config : PostgresProjectionConfig) (pages : ℕ) :
    ℕ → Drained → Runner P Ev Er (Drained × DrainCycleOutcome × Drained)
  | 0,drained => do
    let (outcome,drained') ← drainCycle source config pages drained
    pure (drained,outcome,drained')
  | cycles + 1,drained => do
    let (outcome,drained') ← drainCycle source config pages drained
    match outcome with
    | .stopped _ => pure (drained,outcome,drained')
    | .caughtUp _ =>
      let _ ← ask .pollSleep
      untilCycle source config pages cycles drained'

def runUntilCycle (source : DeliverySourceId) (config : PostgresProjectionConfig)
    (pages cycles : ℕ) : Runner P Ev Er (Drained × DrainCycleOutcome × Drained) := do
  acquireLeader
  let after ← loadValidatedProgress source config
  untilCycle source config pages cycles { after }

def processedPositions (handled : List (ℕ × EnvelopeResult)) : List ℕ :=
  (handled.filter fun h => h.2 = .processed).map Prod.fst

structure Between (i : RunId) (k : Known) (w : World P) (drained : Drained) : Prop where
  knows : Knows i k w
  idle : k.transaction = none
  behind : ∀ a ∈ drained.after, Passed k.progress a
  own : k.own.map (·.position) = processedPositions drained.handled
  skipped : ∀ p, (p,EnvelopeResult.skipped) ∈ drained.handled → p ∈ w.skips

/-- What the results of a cycle say: up to its mark every selected position was handled once and
in order; a projector that stopped it left its position uncommitted. -/
def Exact (selects : ProjectionSelectionId → PersistedEventEnvelope P → Bool)
    (source : RunId → DeliverySourceId) (config : RunId → PostgresProjectionConfig) (i : RunId)
    (w : World P) (before : Drained) (outcome : DrainCycleOutcome) (after : Drained) : Prop :=
  match outcome with
  | .caughtUp none => w.reported i = none ∧ after = before
  | .caughtUp (some through) => w.reported i = some through ∧ ∃ handled,
      after.handled = before.handled ++ handled ∧ (∀ h ∈ handled, h.2 ≠ .stopped) ∧
      handled.map Prod.fst =
        (selected selects source config i w before.after through).map (·.position)
  | .stopped position => ∃ through, w.reported i = some through ∧ ∃ handled,
      after.handled = before.handled ++ handled ++ [(position,.stopped)] ∧
      (∀ h ∈ handled, h.2 ≠ .stopped) ∧
      position ∈ (selected selects source config i w before.after through).map (·.position) ∧
      handled.map Prod.fst = ((selected selects source config i w before.after through).map
        (·.position)).filter (· < position) ∧
      ∀ progress ∈ w.progress, progress.position < position

theorem filter_lt_split {l r : List ℕ} {p : ℕ} (h : (l ++ p :: r).Pairwise (· < ·)) :
    (l ++ p :: r).filter (· < p) = l := by
  obtain ⟨_,hr,hl⟩ := List.pairwise_append.mp h
  have hleft : l.filter (· < p) = l := by
    rw [List.filter_eq_self]
    intro x hx
    simpa using hl x hx p List.mem_cons_self
  have hright : (p :: r).filter (· < p) = [] := by
    rw [List.filter_eq_nil_iff]
    intro x hx
    rcases List.mem_cons.mp hx with rfl | hx
    · simp
    · simpa using ((List.pairwise_cons.mp hr).1 x hx).le
  rw [List.filter_append,hleft,hright,List.append_nil]

theorem Returned.exact {outcome : DrainCycleOutcome} {drained' : Drained}
    (h : Returned selects source config i k drained w outcome drained') :
    Exact selects source config i w drained outcome drained' := by
  unfold Returned at h
  cases htold : w.reported i with
  | none =>
    simp only [htold] at h
    obtain ⟨rfl,rfl,_⟩ := h
    exact ⟨htold,rfl⟩
  | some through =>
    simp only [htold] at h
    obtain ⟨handled,hhandled,h⟩ := h
    match outcome,h with
    | .caughtUp reached,⟨hreached,hnil,k',hcycle⟩ =>
      subst hreached
      refine ⟨htold,handled,hhandled,hcycle.going,?_⟩
      rw [hcycle.complete,hnil]
      simp
    | .stopped position,⟨k',after,before,e,rest,hbefore,hcycle,hnext,hposition,hpending⟩ =>
      subst hposition
      have hcomplete := hcycle.complete
      rw [hnext,List.map_cons] at hcomplete
      have hascending : ((selected selects source config i w drained.after through).map
          (·.position)).Pairwise (· < ·) :=
        List.pairwise_map.mpr (Log.within_ascending hcycle.valid)
      rw [hcomplete] at hascending
      refine ⟨through,htold,before,by rw [hhandled,hbefore,List.append_assoc],hcycle.going,?_,?_,
        fun p hp => (hpending p hp).2.2⟩
      · rw [hcomplete]
        simp
      · rw [hcomplete,filter_lt_split hascending]

@[simp] theorem processedPositions_append (l l' : List (ℕ × EnvelopeResult)) :
    processedPositions (l ++ l') = processedPositions l ++ processedPositions l' := by
  simp [processedPositions]

theorem Returned.effects {w₀ : World P} {outcome : DrainCycleOutcome} {drained' : Drained}
    (hbetween : Between i k w₀ drained) (honward : Onward w₀ w)
    (h : Returned selects source config i k drained w outcome drained') :
    (own i w.readModel).map (·.position) = processedPositions drained'.handled ∧
      ∀ p, (p,EnvelopeResult.skipped) ∈ drained'.handled → p ∈ w.skips := by
  have hcycle : ∀ {k₀ k' : Known} {start after through handled},
      Cycle selects source config i k₀ start through w k' after handled → k₀.own = k.own →
      (own i w.readModel).map (·.position) = processedPositions (drained.handled ++ handled) ∧
        ∀ p, (p,EnvelopeResult.skipped) ∈ drained.handled ++ handled → p ∈ w.skips := by
    intro k₀ k' start after through handled hcycle hk₀
    obtain ⟨applications,hown,hpositions⟩ := hcycle.own
    constructor
    · rw [hcycle.knows.own,hown,hk₀,List.map_append,hbetween.own,hpositions,
        processedPositions_append]
      rfl
    · intro p hp
      rcases List.mem_append.mp hp with hp | hp
      · exact honward.skips (hbetween.skipped p hp)
      · exact hcycle.skipped p hp
  unfold Returned at h
  cases htold : w.reported i with
  | none =>
    simp only [htold] at h
    obtain ⟨_,rfl,hk⟩ := h
    exact ⟨by rw [hk.own,hbetween.own],fun p hp => honward.skips (hbetween.skipped p hp)⟩
  | some through =>
    simp only [htold] at h
    obtain ⟨handled,hhandled,h⟩ := h
    rw [hhandled]
    match outcome,h with
    | .caughtUp _,⟨_,_,k',h⟩ => exact hcycle h rfl
    | .stopped position,⟨k',after,before,_,_,hbefore,h,_⟩ =>
      obtain ⟨hown,hskipped⟩ := hcycle h rfl
      rw [hbefore,← List.append_assoc]
      refine ⟨by rw [hown,processedPositions_append _ [(position,.stopped)]]; simp [processedPositions],
        fun p hp => ?_⟩
      rcases List.mem_append.mp hp with hp | hp
      · exact hskipped p hp
      · simp at hp

theorem Returned.between {w₀ : World P} {through : Option ℕ} {drained' : Drained}
    (hbetween : Between i k w₀ drained) (honward : Onward w₀ w)
    (h : Returned selects source config i k drained w (.caughtUp through) drained') :
    ∃ k', Between i k' w drained' := by
  obtain ⟨hown,hskipped⟩ := h.effects hbetween honward
  unfold Returned at h
  cases htold : w.reported i with
  | none =>
    simp only [htold] at h
    obtain ⟨_,rfl,hk⟩ := h
    exact ⟨_,hk,hbetween.idle,hbetween.behind,hbetween.own,hskipped⟩
  | some mark =>
    simp only [htold] at h
    obtain ⟨_,_,_,_,k',hcycle⟩ := h
    exact ⟨k',hcycle.knows,hcycle.idle,hcycle.behind,hcycle.knows.own ▸ hown,hskipped⟩

theorem spec_pollSleep (hk : Knows i k w) :
    Spec selects source config i C (fun w' _ => Onward w w' ∧ Knows i k w') w
      (ask .pollSleep : Runner P Ev Er _) := by
  refine Spec.ask fun w' hrely hinv c r w'' hperform => ?_
  cases c with
  | cancelled cancelled =>
    obtain ⟨rfl,rfl⟩ := Prod.mk.inj (Option.some.inj hperform)
    exact ⟨hinv,(Quiet.refl hinv.holder i).guar,hrely.onward,hk.rely hrely⟩
  | _ => cases hperform

theorem selected_length_le (w : World P) (after : Option ℕ) (through : ℕ) :
    (selected selects source config i w after through).length ≤
      (selected selects source config i w none through).length := by
  unfold selected Log.within
  have hnone : ∀ l : List (PersistedEventEnvelope P),
      l.filter (fun e => After (none : Option ℕ) e.position) = l := by simp
  rw [hnone]
  exact List.length_filter_le _ _

theorem spec_untilCycle (pages cycles : ℕ) (hbetween : Between i k w drained) :
    Spec selects source config i
      (fun w' => ∃ through, w'.reported i = some through ∧
        pages ≤ (selected selects source config i w' none through).length)
      (fun w' r => Exact selects source config i w' r.1 r.2.1 r.2.2 ∧
        (own i w'.readModel).map (·.position) = processedPositions r.2.2.handled ∧
        ∀ p, (p,EnvelopeResult.skipped) ∈ r.2.2.handled → p ∈ w'.skips) w
      (untilCycle (source i) (config i) pages cycles drained : Runner P Ev Er _) := by
  have hcycle : ∀ {k w} {drained : Drained}, Between i k w drained → Spec selects source config i
      (fun w' => ∃ through, w'.reported i = some through ∧
        pages ≤ (selected selects source config i w' none through).length)
      (fun w' r => Onward w w' ∧ Returned selects source config i k drained w' r.1 r.2) w
      (drainCycle (source i) (config i) pages drained : Runner P Ev Er _) :=
    fun hbetween => (spec_drainCycle pages hbetween.knows hbetween.idle hbetween.behind).mono_cut
      fun w' ⟨through,htold,hpages⟩ => ⟨through,htold,hpages.trans (selected_length_le w' _ _)⟩
  induction cycles generalizing k w drained with
  | zero =>
    exact Spec.bind ((hcycle hbetween).mono fun w₁ r ⟨h₁,hreturned⟩ =>
      Spec.pure ⟨hreturned.exact,hreturned.effects hbetween h₁⟩)
  | succ cycles ih =>
    refine Spec.bind ((hcycle hbetween).mono fun w₁ r ⟨h₁,hreturned⟩ => ?_)
    match r with
    | (.stopped _,drained') =>
      exact Spec.pure ⟨hreturned.exact,hreturned.effects hbetween h₁⟩
    | (.caughtUp _,drained') =>
      obtain ⟨k',hbetween'⟩ := hreturned.between hbetween h₁
      refine Spec.bind ((spec_pollSleep hbetween'.knows).mono fun w₂ _ ⟨h₂,hk₂⟩ => ?_)
      exact ih ⟨hk₂,hbetween'.idle,hbetween'.behind,hbetween'.own,
        fun p hp => h₂.skips (hbetween'.skipped p hp)⟩

theorem spec_first {α : Type} {Q : World P → α → Prop} (hfresh : Fresh i w)
    {body : Option ℕ → Runner P Ev Er α}
    (hbody : ∀ w' k after, Between i k w' { after } → Spec selects source config i C Q w' (body after)) :
    Spec selects source config i C Q w
      (do
        acquireLeader
        let after ← loadValidatedProgress (source i) (config i)
        body after) := by
  refine Spec.bind ((spec_acquireLeader hfresh).mono fun w₁ _ ⟨k,hidle,hown,hk₁⟩ => ?_)
  refine Spec.bind ((spec_loadValidatedProgress hk₁ hidle).mono
    fun w₂ after ⟨_,hk₂,hbehind⟩ => ?_)
  exact hbody w₂ k after ⟨hk₂,hidle,hbehind,by simp [hown,processedPositions],by simp⟩

end Whole

section System

variable (selects source config)

structure Initial (w : World P) : Prop where
  readModel : w.readModel = []
  progress : w.progress = none
  holder : w.holder = none
  executed : w.executed = []
  session : ∀ i, w.session i = {}
  logs : ∀ source, (w.log source).Valid

variable {selects source config}

theorem Initial.inv {w : World P} (h : Initial w) : Inv selects w := by
  have hdelivered : delivered selects w = [] := by rw [delivered,h.progress]
  constructor
  · exact h.logs
  · intro i hi
    rw [h.session i]
  · simp [h.readModel]
  · simp [hdelivered]
  · simp [h.readModel]
  · simp [h.progress]
  · simp [h.executed]
  · simp [h.executed]

theorem Initial.fresh {w : World P} (h : Initial w) (i : RunId) : Fresh i w :=
  ⟨by simp [h.readModel,own],.inr (by rw [h.session i])⟩

variable (selects source config)

def cycleSystem (pages cycles : RunId → ℕ) :
    Runs.System (State RunId (Request P Ev Er) (Answer P Ev Er) (World P)
      (Except (TransactionalProjectionError Er) (Drained × DrainCycleOutcome × Drained)))
      (Label RunId (Choice Ev Er) (Happening P)) :=
  (World.machine selects).system
    (fun i _ => runUntilCycle (source i) (config i) (pages i) (cycles i)) Initial

variable {selects source config}

/-- A cycle that returns has handled what it says and committed what it processed; one that still
reads pages has read no more than there is to read up to its mark. -/
theorem drain_cycle_exact {pages cycles : RunId → ℕ} {s t : State RunId (Request P Ev Er)
      (Answer P Ev Er) (World P) (Except (TransactionalProjectionError Er)
      (Drained × DrainCycleOutcome × Drained))} {i : RunId} {c : Choice Ev Er}
    (hs : Runs.Reachable (cycleSystem selects source config pages cycles) s)
    (hstep : (cycleSystem selects source config pages cycles).step s (.ask i c) = some t) :
    (∀ before outcome after, t.client i = .running (.done (.ok (before,outcome,after))) →
      Exact selects source config i t.world before outcome after ∧
      (own i t.world.readModel).map (·.position) = processedPositions after.handled ∧
      ∀ p, (p,EnvelopeResult.skipped) ∈ after.handled → p ∈ t.world.skips) ∧
    (t.client i = .running .cut → ∃ through, t.world.reported i = some through ∧
      pages i ≤ (selected selects source config i t.world none through).length) := by
  have hprograms : ∀ i (_ : ℕ) (w : World P), Inv selects w → Fresh i w →
      Spec selects source config i
        (fun w' => ∃ through, w'.reported i = some through ∧
          pages i ≤ (selected selects source config i w' none through).length)
        (fun w' r => Exact selects source config i w' r.1 r.2.1 r.2.2 ∧
          (own i w'.readModel).map (·.position) = processedPositions r.2.2.handled ∧
          ∀ p, (p,EnvelopeResult.skipped) ∈ r.2.2.handled → p ∈ w'.skips) w
        (runUntilCycle (source i) (config i) (pages i) (cycles i) : Runner P Ev Er _) :=
    fun i _ w _ hfresh => spec_first hfresh fun w' k after hbetween =>
      spec_untilCycle (pages i) (cycles i) hbetween
  obtain ⟨hinv,hclients⟩ := reachable_sound (R := rules selects source config) hprograms
    (fun w hw => ⟨hw.inv,fun i => hw.fresh i⟩) hs
  have hstep' : (World.machine selects).step
      (fun i _ => runUntilCycle (source i) (config i) (pages i) (cycles i)) s (.ask i c) = some t :=
    hstep
  obtain ⟨_,_,_,hended⟩ :=
    step_sound (R := rules selects source config) hprograms hinv hclients hstep'
  exact ⟨fun before outcome after hdone => hended _ _ hdone rfl,fun hcut => hended _ _ hcut rfl⟩

end System

end Drain

/-! One runner drains the only order while another one is refused and a second order arrives. -/
namespace OneOrder

def selects : ProjectionSelectionId → PersistedEventEnvelope Unit → Bool := fun _ _ => true

def source : RunId → DeliverySourceId := fun _ => "orders"

def config : RunId → PostgresProjectionConfig := fun _ => .stepwise "all"

def world : World Unit := { log := fun _ => ⟨[⟨1,()⟩],0⟩ }

theorem world_initial : Initial world :=
  ⟨rfl,rfl,rfl,rfl,fun _ => rfl,fun _ => ⟨by simp [world],by simp [world]⟩⟩

def labels : List (Label RunId (Choice Unit Unit) (Happening Unit)) :=
  [.start 0 2,.start 1 2,.ask 0 .ok,.ask 0 .ok,.ask 1 .ok,.ask 1 .ok] ++
  [.ask 0 .ok,.ask 0 .ok,.ask 0 .ok,.ask 0 .ok,.ask 0 (.page 1)] ++
  [.ask 0 .ok,.ask 0 .ok,.ask 0 (.decoded (.ok ())),.ask 0 (.applied (.ok ())),.ask 0 .ok] ++
  [.background (.deliver "orders" ⟨2,()⟩),.ask 0 .ok,.ask 0 .ok]

abbrev cycles : Runs.System (State RunId (Request Unit Unit Unit) (Answer Unit Unit Unit)
    (World Unit) (Except (TransactionalProjectionError Unit)
      (Drained × DrainCycleOutcome × Drained)))
    (Label RunId (Choice Unit Unit) (Happening Unit)) :=
  cycleSystem selects source config (fun _ => 2) fun _ => 0

/-- The first order is committed; the next page will be empty. -/
def drained : State RunId (Request Unit Unit Unit) (Answer Unit Unit Unit)
    (World Unit) (Except (TransactionalProjectionError Unit)
      (Drained × DrainCycleOutcome × Drained)) :=
  (Runs.exec cycles ⟨world,fun _ => .waiting⟩ labels).get (by decide +kernel)

def returned : State RunId (Request Unit Unit Unit) (Answer Unit Unit Unit)
    (World Unit) (Except (TransactionalProjectionError Unit)
      (Drained × DrainCycleOutcome × Drained)) :=
  (cycles.step drained (.ask 0 (.page 0))).get (by decide +kernel)

theorem drained_reachable : Runs.Reachable cycles drained :=
  .exec (.init ⟨world_initial,fun _ => rfl⟩) (Option.some_get _).symm

theorem returned_client : returned.client 0 = .running (.done (.ok
    ({ after := none },.caughtUp (some 1),⟨some 1,1,0,[(1,.processed)]⟩))) :=
  Client.eq_of_result? (by decide +kernel)

end OneOrder

theorem drain_cycle_exact_oneOrder :
    Exact OneOrder.selects OneOrder.source OneOrder.config 0 OneOrder.returned.world
      { after := none } (.caughtUp (some 1)) ⟨some 1,1,0,[(1,.processed)]⟩ :=
  ((drain_cycle_exact OneOrder.drained_reachable (Option.some_get _).symm).1 _ _ _
    OneOrder.returned_client).1

end DrainCycle
end EventCore
