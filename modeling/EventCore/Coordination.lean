import EventCore.Runs
import Mathlib.Logic.Function.Basic

/-! Leadership by name: coordinators that hand out guards and take them back, what makes one
exclusive, and what that gives along every run of any number of clients. -/
namespace EventCore
namespace Coordination

section Coordinators

variable (C Name Guard Choice : Type)

/-- How leadership is asked for and given up. All that the environment decides is a choice. -/
structure Coordinator where
  tryAcquire : C → Name → Choice → Option Guard × C
  drop : C → Guard → Choice → C
  other : C → Choice → C

end Coordinators

variable {C Name Guard Choice Client : Type}

/-- Who has a guard that is not dropped yet, and for which name it was asked. -/
abbrev Leaders (Client Name Guard : Type) : Type := Client → Option (Name × Guard)

variable [DecidableEq Client]

/-- As long as the environment does only what is allowed, `Rep` ties what the coordinator keeps
to the guards that are out, and never are two of them out for one name. -/
structure Exclusive (coordinator : Coordinator C Name Guard Choice) (allowed : C → Choice → Prop)
    (Rep : C → Leaders Client Name Guard → Prop) : Prop where
  alone : ∀ {c leaders i j name g g'}, Rep c leaders → leaders i = some (name,g) →
    leaders j = some (name,g') → i = j
  acquired : ∀ {c c' leaders i name choice g}, Rep c leaders → leaders i = none →
    coordinator.tryAcquire c name choice = (some g,c') →
    Rep c' (Function.update leaders i (some (name,g)))
  refused : ∀ {c c' leaders name choice}, Rep c leaders →
    coordinator.tryAcquire c name choice = (none,c') → Rep c' leaders
  dropped : ∀ {c leaders i name g choice}, Rep c leaders → leaders i = some (name,g) →
    Rep (coordinator.drop c g choice) (Function.update leaders i none)
  other : ∀ {c leaders choice}, Rep c leaders → allowed c choice →
    Rep (coordinator.other c choice) leaders

section Clients

structure State (C Client Name Guard : Type) where
  coordinator : C
  leaders : Leaders Client Name Guard

inductive Label (Client Name Choice : Type)
  | acquire (client : Client) (name : Name) (choice : Choice)
  | drop (client : Client) (choice : Choice)
  | other (choice : Choice)

variable (coordinator : Coordinator C Name Guard Choice)

def State.step (s : State C Client Name Guard) :
    Label Client Name Choice → Option (State C Client Name Guard)
  | .acquire i name choice =>
    match s.leaders i with
    | some _ => none
    | none =>
      let (guard,c) := coordinator.tryAcquire s.coordinator name choice
      some ⟨c,Function.update s.leaders i (guard.map (name,·))⟩
  | .drop i choice => (s.leaders i).map fun lead =>
      ⟨coordinator.drop s.coordinator lead.2 choice,Function.update s.leaders i none⟩
  | .other choice => some { s with coordinator := coordinator.other s.coordinator choice }

def system (first : C) : Runs.System (State C Client Name Guard) (Label Client Name Choice) where
  init s := s = ⟨first,fun _ => none⟩
  step := State.step coordinator

def Allows (allowed : C → Choice → Prop) (s : State C Client Name Guard) :
    Label Client Name Choice → Prop
  | .other choice => allowed s.coordinator choice
  | _ => True

variable {coordinator} {allowed : C → Choice → Prop} {Rep : C → Leaders Client Name Guard → Prop}

theorem Exclusive.rep_step (h : Exclusive coordinator allowed Rep)
    {s t : State C Client Name Guard} {l : Label Client Name Choice}
    (hrep : Rep s.coordinator s.leaders) (hl : Allows allowed s l)
    (hstep : s.step coordinator l = some t) : Rep t.coordinator t.leaders := by
  cases l with
  | acquire i name choice =>
    cases hlead : s.leaders i with
    | some lead => simp [State.step,hlead] at hstep
    | none =>
      rcases hacquire : coordinator.tryAcquire s.coordinator name choice with ⟨guard | g,c⟩
      · simp only [State.step,hlead,hacquire,Option.some.injEq] at hstep
        subst hstep
        have hsame : Function.update s.leaders i none = s.leaders := by
          rw [← hlead,Function.update_eq_self]
        simpa [hsame] using h.refused hrep hacquire
      · simp only [State.step,hlead,hacquire,Option.some.injEq] at hstep
        subst hstep
        exact h.acquired hrep hlead hacquire
  | drop i choice =>
    simp only [State.step,Option.map_eq_some_iff,Prod.exists] at hstep
    obtain ⟨name,g,hlead,rfl⟩ := hstep
    exact h.dropped hrep hlead
  | other choice =>
    obtain rfl := Option.some.inj hstep
    exact h.other hrep hl

theorem Exclusive.rep_of_reachableBy (h : Exclusive coordinator allowed Rep) {first : C}
    (hfirst : Rep first fun _ => none) {s : State C Client Name Guard}
    (hs : Runs.ReachableBy (system coordinator first) (Allows allowed) s) :
    Rep s.coordinator s.leaders := by
  refine Runs.ReachableBy.invariant (I := fun s => Rep s.coordinator s.leaders) ?_ ?_ hs
  · rintro s rfl
    exact hfirst
  · exact fun s l t hrep hl hstep => h.rep_step hrep hl hstep

end Clients

section Keys

variable {Key : Type} [DecidableEq Key]

def table (key : Name → Key) : Coordinator (List Key) Name Key Unit where
  tryAcquire taken name _ :=
    if key name ∈ taken then (none,taken) else (some (key name),key name :: taken)
  drop taken k _ := taken.erase k
  other taken _ := taken

def held (leaders : Leaders Client Name Key) (i : Client) : Option Key := (leaders i).map Prod.snd

omit [DecidableEq Key] in
theorem held_update (leaders : Leaders Client Name Key) (i : Client)
    (lead : Option (Name × Key)) :
    held (Function.update leaders i lead) =
      Function.update (held leaders) i (lead.map Prod.snd) := by
  funext j
  by_cases hji : j = i
  · subst hji
    simp [held]
  · simp [held,hji]

/-- What is taken is the keys of those who lead, each the key of its name. -/
structure TableRep (key : Name → Key) (taken : List Key)
    (leaders : Leaders Client Name Key) : Prop where
  nodup : taken.Nodup
  taken_iff : ∀ k, k ∈ taken ↔ ∃ i, held leaders i = some k
  alone : ∀ i j k, held leaders i = some k → held leaders j = some k → i = j
  key : ∀ i name k, leaders i = some (name,k) → key name = k

omit [DecidableEq Key] [DecidableEq Client] in
theorem tableRep_nil (key : Name → Key) : TableRep key [] (fun _ : Client => none) :=
  ⟨.nil,by simp [held],by simp [held],by simp⟩

variable {key : Name → Key} {taken : List Key} {leaders : Leaders Client Name Key} {i : Client}
  {name : Name}

omit [DecidableEq Key] in
theorem TableRep.acquired (h : TableRep key taken leaders) (hi : leaders i = none)
    (hfree : key name ∉ taken) :
    TableRep key (key name :: taken) (Function.update leaders i (some (name,key name))) := by
  have hidle : held leaders i = none := by simp [held,hi]
  have hother : ∀ j, held leaders j ≠ some (key name) :=
    fun j hj => hfree ((h.taken_iff _).mpr ⟨j,hj⟩)
  have hheld : ∀ j k, held (Function.update leaders i (some (name,key name))) j = some k ↔
      (j = i ∧ k = key name) ∨ held leaders j = some k := by
    intro j k
    rw [held_update]
    by_cases hji : j = i
    · subst hji
      simp [hidle,eq_comm]
    · simp [hji]
  refine ⟨List.nodup_cons.mpr ⟨hfree,h.nodup⟩,fun k => ?_,fun j j' k hj hj' => ?_,fun j name' k hj => ?_⟩
  · rw [List.mem_cons,h.taken_iff]
    simp only [hheld]
    constructor
    · rintro (rfl | ⟨j,hj⟩)
      · exact ⟨i,.inl ⟨rfl,rfl⟩⟩
      · exact ⟨j,.inr hj⟩
    · rintro ⟨j,⟨-,rfl⟩ | hj⟩
      · exact .inl rfl
      · exact .inr ⟨j,hj⟩
  · rcases (hheld j k).mp hj with ⟨rfl,rfl⟩ | hj
    · rcases (hheld j' _).mp hj' with ⟨rfl,-⟩ | hj'
      · rfl
      · exact absurd hj' (hother j')
    · rcases (hheld j' k).mp hj' with ⟨-,rfl⟩ | hj'
      · exact absurd hj (hother j)
      · exact h.alone j j' k hj hj'
  · by_cases hji : j = i
    · subst hji
      rw [Function.update_self] at hj
      obtain ⟨rfl,rfl⟩ := Prod.mk.inj (Option.some.inj hj)
      rfl
    · rw [Function.update_of_ne hji] at hj
      exact h.key j name' k hj

theorem TableRep.dropped (h : TableRep key taken leaders) {k : Key}
    (hi : leaders i = some (name,k)) :
    TableRep key (taken.erase k) (Function.update leaders i none) := by
  have hi' : held leaders i = some k := by simp [held,hi]
  have hheld : ∀ j k', held (Function.update leaders i none) j = some k' ↔
      j ≠ i ∧ held leaders j = some k' := by
    intro j k'
    rw [held_update]
    by_cases hji : j = i
    · subst hji
      simp
    · simp [hji]
  refine ⟨h.nodup.erase k,fun k' => ?_,fun j j' k' hj hj' => ?_,fun j name' k' hj => ?_⟩
  · rw [h.nodup.mem_erase_iff,h.taken_iff]
    simp only [hheld]
    constructor
    · rintro ⟨hne,j,hj⟩
      refine ⟨j,?_,hj⟩
      rintro rfl
      exact hne (Option.some.inj (hj.symm.trans hi'))
    · rintro ⟨j,hji,hj⟩
      refine ⟨?_,j,hj⟩
      rintro rfl
      exact hji (h.alone j i _ hj hi')
  · exact h.alone j j' k' ((hheld j k').mp hj).2 ((hheld j' k').mp hj').2
  · by_cases hji : j = i
    · subst hji
      simp at hj
    · rw [Function.update_of_ne hji] at hj
      exact h.key j name' k' hj

theorem table_exclusive (key : Name → Key) :
    Exclusive (table key) (fun _ _ => True) (TableRep key : _ → Leaders Client Name Key → Prop) where
  alone {c leaders i j name g g'} h hi hj := by
    obtain rfl : g = g' := (h.key i name g hi).symm.trans (h.key j name g' hj)
    exact h.alone i j g (by simp [held,hi]) (by simp [held,hj])
  acquired {taken taken' leaders i name _ k} h hi hacquire := by
    by_cases hmem : key name ∈ taken
    · simp [table,hmem] at hacquire
    · simp only [table,if_neg hmem,Prod.mk.injEq,Option.some.injEq] at hacquire
      obtain ⟨rfl,rfl⟩ := hacquire
      exact h.acquired hi hmem
  refused {taken taken' leaders name _} h hrefused := by
    by_cases hmem : key name ∈ taken
    · simp only [table,if_pos hmem,Prod.mk.injEq,true_and] at hrefused
      rwa [← hrefused]
    · simp [table,hmem] at hrefused
  dropped {taken leaders i name k _} h hi := h.dropped hi
  other h _ := h

omit [DecidableEq Client] in
theorem TableRep.refused_iff (h : TableRep key taken leaders) (name : Name) :
    ((table key).tryAcquire taken name ()).1 = none ↔ ∃ i, held leaders i = some (key name) := by
  rw [← h.taken_iff]
  by_cases hmem : key name ∈ taken
  · simp [table,hmem]
  · simp [table,hmem]

end Keys

end Coordination
end EventCore
