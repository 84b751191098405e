import EventCore.ProjectionDestination

/-! What competing runners may rely on and must guarantee: only the holder of the lock moves the
destination, and what a source has reported stays. -/
namespace EventCore
namespace ProjectionRules
open Interaction ProjectionSource TransactionalRunner ProjectionDestination PagedScan

variable {P Ev Er : Type}

def own (i : RunId) (applications : List Application) : List Application :=
  applications.filter fun a => a.run = i

theorem own_append_self {i : RunId} {l l' : List Application} (h : ∀ a ∈ l', a.run = i) :
    own i (l ++ l') = own i l ++ l' := by
  have hall : l'.filter (fun a => a.run = i) = l' := List.filter_eq_self.mpr (by simpa using h)
  rw [own,List.filter_append,hall,own]

theorem own_append_other {i j : RunId} {l l' : List Application} (hij : i ≠ j)
    (h : ∀ a ∈ l', a.run = i) : own j (l ++ l') = own j l := by
  have hnone : l'.filter (fun a => a.run = j) = [] := by
    rw [List.filter_eq_nil_iff]
    intro a ha
    simpa [h a ha] using hij
  rw [own,List.filter_append,hnone,List.append_nil,own]

structure Onward (w w' : World P) : Prop where
  log : ∀ source, (w.log source).Grows (w'.log source)
  valid : ∀ source, (w.log source).Valid → (w'.log source).Valid
  skips : w.skips ⊆ w'.skips
  readModel : w.readModel ⊆ w'.readModel

theorem Onward.of_log_eq {w w' : World P} (hlog : w'.log = w.log) (hskips : w.skips ⊆ w'.skips)
    (hreadModel : w.readModel ⊆ w'.readModel) : Onward w w' :=
  ⟨fun _ => hlog ▸ .refl _,fun _ => hlog ▸ id,hskips,hreadModel⟩

theorem Onward.refl (w : World P) : Onward w w :=
  .of_log_eq rfl (fun _ h => h) fun _ h => h

theorem Onward.trans {u v w : World P} (huv : Onward u v) (hvw : Onward v w) : Onward u w :=
  ⟨fun source => (huv.log source).trans (hvw.log source),
    fun source h => hvw.valid source (huv.valid source h),List.Subset.trans huv.skips hvw.skips,
    List.Subset.trans huv.readModel hvw.readModel⟩

/-- Others leave a run's session alone unless it breaks, and while it holds the lock they leave
the progress alone as well. -/
structure Rely (i : RunId) (w w' : World P) : Prop where
  onward : Onward w w'
  session : w'.session i = w.session i ∨ (w'.session i).lost = true
  holder : w.holder = some i →
    (w'.session i).lost = true ∨ w'.holder = some i ∧ w'.progress = w.progress
  reported : w'.reported i = w.reported i
  own_readModel : own i w'.readModel = own i w.readModel
  own_executed : own i w'.executed = own i w.executed

section Guarantee

variable (source : RunId → DeliverySourceId) (config : RunId → PostgresProjectionConfig)

/-- A commit of the lock's holder moves progress upwards under one identity. -/
structure Advances (i : RunId) (w w' : World P) : Prop where
  holder : w.holder = some i
  moves : ∃ applications position, w'.readModel = w.readModel ++ applications ∧
    (∀ a ∈ applications, a.run = i ∧ a.position = position) ∧
    w'.progress = some ⟨source i,(config i).selection,position⟩ ∧
    ∀ old ∈ w.progress, old.sourceId = source i ∧ old.selectionId = (config i).selection ∧
      old.position < position

structure Guar (i : RunId) (w w' : World P) : Prop where
  onward : Onward w w'
  session : ∀ j, i ≠ j → w'.session j = w.session j
  holder : ∀ j, i ≠ j → w.holder = some j → w'.holder = some j
  reported : ∀ j, i ≠ j → w'.reported j = w.reported j
  executed : ∃ begun, w'.executed = w.executed ++ begun ∧ ∀ a ∈ begun, a.run = i
  destination : w'.readModel = w.readModel ∧ w'.progress = w.progress ∨
    Advances source config i w w'

end Guarantee

section Invariant

variable (selects : ProjectionSelectionId → PersistedEventEnvelope P → Bool)

def delivered (w : World P) : List ℕ :=
  match w.progress with
  | none => []
  | some progress =>
    ((w.log progress.sourceId).within (selects progress.selectionId) none
      (.inclusive progress.position)).map (·.position)

structure Inv (w : World P) : Prop where
  logs : ∀ source, (w.log source).Valid
  holder : ∀ i, w.holder = some i → (w.session i).lost = false
  sublist : (w.readModel.map (·.position)).Sublist (delivered selects w)
  accounted : ∀ p ∈ delivered selects w, p ∈ w.readModel.map (·.position) ∨ p ∈ w.skips
  succeeded : ∀ a ∈ w.readModel, a.succeeded = true
  last : ∀ progress ∈ w.progress, progress.position ∈ delivered selects w ∧
    progress.position ≤ (w.log progress.sourceId).sealed
  executed_nodup : w.executed.Nodup
  executed : w.executed ⊆ w.readModel

/-- A run that has not begun has no effects and no open transaction. -/
structure Fresh (i : RunId) (w : World P) : Prop where
  own : own i w.readModel = []
  transaction : (w.session i).lost = true ∨ (w.session i).transaction = none

variable {selects}

theorem delivered_onward {w w' : World P} (h : Inv selects w) (honward : Onward w w')
    (hprogress : w'.progress = w.progress) : delivered selects w' = delivered selects w := by
  unfold delivered
  rw [hprogress]
  cases hp : w.progress with
  | none => rfl
  | some progress =>
    have hsealed := (h.last progress hp).2
    exact congrArg (List.map _) ((honward.log progress.sourceId).within_eq hsealed)

theorem Inv.keep {w w' : World P} (h : Inv selects w) (honward : Onward w w')
    (hholder : ∀ i, w'.holder = some i → (w'.session i).lost = false)
    (hreadModel : w'.readModel = w.readModel) (hprogress : w'.progress = w.progress)
    (hexecuted : w'.executed = w.executed) : Inv selects w' := by
  have hdelivered := delivered_onward h honward hprogress
  constructor
  · exact fun source => honward.valid source (h.logs source)
  · exact hholder
  · rw [hdelivered,hreadModel]
    exact h.sublist
  · rw [hdelivered,hreadModel]
    exact fun p hp => (h.accounted p hp).imp_right fun hskip => honward.skips hskip
  · rw [hreadModel]
    exact h.succeeded
  · intro progress hp
    rw [hprogress] at hp
    obtain ⟨hmem,hsealed⟩ := h.last progress hp
    exact ⟨hdelivered ▸ hmem,hsealed.trans (honward.log _).sealed_le⟩
  · rw [hexecuted]
    exact h.executed_nodup
  · rw [hexecuted,hreadModel]
    exact h.executed

end Invariant

section Background

variable {selects : ProjectionSelectionId → PersistedEventEnvelope P → Bool}

theorem log_update_grows {log : DeliverySourceId → Log P} {source : DeliverySourceId} {l : Log P}
    (h : (log source).Grows l) (s : DeliverySourceId) :
    (log s).Grows (Function.update log source l s) := by
  by_cases hs : s = source
  · subst hs
    rwa [Function.update_self]
  · rw [Function.update_of_ne hs]
    exact .refl _

theorem log_update_onward {w : World P} {source : DeliverySourceId} {l : Log P}
    (hgrows : (w.log source).Grows l) (hvalid : (w.log source).Valid → l.Valid)
    (reported : RunId → Option ℕ) :
    Onward w { w with log := Function.update w.log source l, reported } := by
  refine ⟨log_update_grows hgrows,fun s hs => ?_,fun _ h => h,fun _ h => h⟩
  by_cases hsource : s = source
  · subst hsource
    simpa using hvalid hs
  · simpa [Function.update_of_ne hsource] using hs

theorem disconnect_onward (w : World P) (i : RunId) : Onward w (w.disconnect i) :=
  .of_log_eq rfl (fun _ h => h) fun _ h => h

theorem disconnect_session_of_ne (w : World P) {i j : RunId} (h : i ≠ j) :
    (w.disconnect i).session j = w.session j := Function.update_of_ne h.symm _ _

theorem disconnect_holder_of_ne (w : World P) {i j : RunId} (h : i ≠ j) :
    (w.disconnect i).holder = some j ↔ w.holder = some j := by
  unfold World.disconnect
  by_cases hi : w.holder = some i
  · simp [hi,h]
  · simp [hi]

theorem disconnect_holder_self (w : World P) (i : RunId) : (w.disconnect i).holder ≠ some i := by
  unfold World.disconnect
  by_cases hi : w.holder = some i <;> simp [hi]

theorem disconnect_inv {w : World P} (h : Inv selects w) (i : RunId) :
    Inv selects (w.disconnect i) := by
  refine h.keep (disconnect_onward w i) (fun j hj => ?_) rfl rfl rfl
  by_cases hij : i = j
  · subst hij
    exact absurd hj (disconnect_holder_self w i)
  · rw [disconnect_session_of_ne w hij]
    exact h.holder j ((disconnect_holder_of_ne w hij).mp hj)

theorem happen_inv {w w' : World P} {b : Happening P} (h : Inv selects w)
    (hb : w.happen b = some w') : Inv selects w' := by
  cases b with
  | disconnect i =>
    obtain rfl := Option.some.inj hb
    exact disconnect_inv h i
  | deliver source envelope =>
    simp only [World.happen,Option.map_eq_some_iff] at hb
    obtain ⟨l,hl,rfl⟩ := hb
    have honward := log_update_onward (Log.deliver_grows hl)
      (fun hvalid => Log.deliver_valid hvalid hl) w.reported
    exact h.keep honward h.holder rfl rfl rfl

theorem happen_rely {w w' : World P} {b : Happening P} (i : RunId) (hb : w.happen b = some w') :
    Rely i w w' := by
  cases b with
  | disconnect j =>
    obtain rfl := Option.some.inj hb
    have hself : ((w.disconnect j).session j).lost = true := by simp [World.disconnect]
    by_cases hij : j = i
    · subst hij
      exact ⟨disconnect_onward w j,.inr hself,fun _ => .inl hself,rfl,rfl,rfl⟩
    · exact ⟨disconnect_onward w j,.inl (disconnect_session_of_ne w hij),
        fun hi => .inr ⟨(disconnect_holder_of_ne w hij).mpr hi,rfl⟩,rfl,rfl,rfl⟩
  | deliver source envelope =>
    simp only [World.happen,Option.map_eq_some_iff] at hb
    obtain ⟨l,hl,rfl⟩ := hb
    exact ⟨log_update_onward (Log.deliver_grows hl) (fun hvalid => Log.deliver_valid hvalid hl)
      w.reported,.inl rfl,fun hi => .inr ⟨hi,rfl⟩,rfl,rfl,rfl⟩

end Background

theorem Rely.refl (i : RunId) (w : World P) : Rely i w w :=
  ⟨.refl w,.inl rfl,fun h => .inr ⟨h,rfl⟩,rfl,rfl,rfl⟩

theorem Rely.lost {i : RunId} {w w' : World P} (h : Rely i w w')
    (hlost : (w.session i).lost = true) : (w'.session i).lost = true := by
  rcases h.session with hsame | hlost'
  · rwa [hsame]
  · exact hlost'

theorem Rely.trans {i : RunId} {u v w : World P} (huv : Rely i u v) (hvw : Rely i v w) :
    Rely i u w := by
  constructor
  · exact huv.onward.trans hvw.onward
  · rcases hvw.session with hsame | hlost
    · rcases huv.session with hsame' | hlost'
      · exact .inl (hsame.trans hsame')
      · exact .inr (hvw.lost hlost')
    · exact .inr hlost
  · intro hu
    rcases huv.holder hu with hlost | ⟨hv,hprogress⟩
    · exact .inl (hvw.lost hlost)
    · rcases hvw.holder hv with hlost | ⟨hw,hprogress'⟩
      · exact .inl hlost
      · exact .inr ⟨hw,hprogress'.trans hprogress⟩
  · exact hvw.reported.trans huv.reported
  · exact hvw.own_readModel.trans huv.own_readModel
  · exact hvw.own_executed.trans huv.own_executed

theorem Fresh.rely {i : RunId} {w w' : World P} (h : Fresh i w) (hrely : Rely i w w') :
    Fresh i w' := by
  refine ⟨hrely.own_readModel.trans h.own,?_⟩
  rcases h.transaction with hlost | hnone
  · exact .inl (hrely.lost hlost)
  · rcases hrely.session with hsame | hlost
    · exact .inr (by rwa [hsame])
    · exact .inl hlost

theorem Guar.rely {source : RunId → DeliverySourceId}
    {config : RunId → PostgresProjectionConfig} {i j : RunId} {w w' : World P} (hij : i ≠ j)
    (h : Guar source config i w w') : Rely j w w' := by
  have hholder : w.holder = some j → w'.progress = w.progress := by
    intro hj
    rcases h.destination with ⟨_,hprogress⟩ | hadvance
    · exact hprogress
    · have hi := hadvance.holder.symm.trans hj
      exact absurd (Option.some.inj hi) hij
  refine ⟨h.onward,.inl (h.session j hij),fun hj => .inr ⟨h.holder j hij hj,hholder hj⟩,
    h.reported j hij,?_,?_⟩
  · rcases h.destination with ⟨hreadModel,_⟩ | hadvance
    · rw [hreadModel]
    · obtain ⟨applications,_,hreadModel,hrun,_⟩ := hadvance.moves
      rw [hreadModel,own_append_other hij fun a ha => (hrun a ha).1]
  · obtain ⟨begun,hexecuted,hrun⟩ := h.executed
    rw [hexecuted,own_append_other hij hrun]

def rules (selects : ProjectionSelectionId → PersistedEventEnvelope P → Bool)
    (source : RunId → DeliverySourceId) (config : RunId → PostgresProjectionConfig) :
    Rules (World.machine selects : Machine RunId (Request P Ev Er) (Answer P Ev Er) (World P)
      (Choice Ev Er) (Happening P)) where
  inv := Inv selects
  rely := Rely
  guar := Guar source config
  fresh := Fresh
  rely_refl := .refl
  rely_trans := .trans
  guar_rely := fun hij _ h => h.rely hij
  fresh_rely := Fresh.rely
  background_inv := happen_inv
  background_rely := fun _ hb => happen_rely _ hb

end ProjectionRules
end EventCore
