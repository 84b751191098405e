import Mathlib.Data.List.Basic

/-! Executable labelled transition systems, guarded reachability, and the
induction rules that every invariant over whole runs goes through. -/
namespace EventCore
namespace Runs

/-- `step s l` is `none` exactly when the label `l` is disabled in `s`. -/
structure System (S L : Type*) where
  init : S → Prop
  step : S → L → Option S

variable {S L : Type*} (sys : System S L)

/-- States reached by steps that all satisfy the guard `G`. -/
inductive ReachableBy (G : S → L → Prop) : S → Prop
  | init {s : S} : sys.init s → ReachableBy G s
  | step {s t : S} {l : L} :
      ReachableBy G s → G s l → sys.step s l = some t → ReachableBy G t

abbrev Reachable : S → Prop := ReachableBy sys fun _ _ => True

/-- Replay a list of labels; `none` once a label is disabled. -/
def exec (s : S) (ls : List L) : Option S := ls.foldlM sys.step s

@[simp] theorem exec_nil (s : S) : exec sys s [] = some s := rfl

@[simp] theorem exec_cons (s : S) (l : L) (ls : List L) :
    exec sys s (l :: ls) = (sys.step s l).bind fun t => exec sys t ls := rfl

theorem exec_append (s : S) (ls ls' : List L) :
    exec sys s (ls ++ ls') = (exec sys s ls).bind fun t => exec sys t ls' :=
  List.foldlM_append

variable {sys}

/-- The invariant rule: guarded steps only have to preserve `I` under their guard. -/
theorem ReachableBy.invariant {G : S → L → Prop} {I : S → Prop}
    (hinit : ∀ s, sys.init s → I s)
    (hstep : ∀ s l t, I s → G s l → sys.step s l = some t → I t)
    {s : S} (h : ReachableBy sys G s) : I s := by
  induction h with
  | init h => exact hinit _ h
  | step _ hg hs ih => exact hstep _ _ _ ih hg hs

theorem ReachableBy.mono {G H : S → L → Prop} (hGH : ∀ s l, G s l → H s l)
    {s : S} (h : ReachableBy sys G s) : ReachableBy sys H s := by
  induction h with
  | init h => exact .init h
  | step _ hg hs ih => exact ih.step (hGH _ _ hg) hs

variable (sys)

/-- `P` holds in every state met while replaying `ls` from `s`. -/
def Along (P : S → Prop) : S → List L → Prop
  | s, [] => P s
  | s, l :: ls => P s ∧ ∀ t, sys.step s l = some t → Along P t ls

/-- Every step of the replay of `ls` from `s` satisfies the guard `G`. -/
def AllSteps (G : S → L → Prop) : S → List L → Prop
  | _, [] => True
  | s, l :: ls => G s l ∧ ∀ t, sys.step s l = some t → AllSteps G t ls

variable {sys}

theorem AllSteps.of_forall {G : S → L → Prop} (h : ∀ s l, G s l) (s : S) (ls : List L) :
    AllSteps sys G s ls := by
  induction ls generalizing s with
  | nil => trivial
  | cons l ls ih => exact ⟨h s l,fun t _ => ih t⟩

instance decidableAllSteps {G : S → L → Prop} [∀ s l, Decidable (G s l)] :
    ∀ s ls, Decidable (AllSteps sys G s ls)
  | _, [] => isTrue trivial
  | s, l :: ls =>
    have : ∀ t, Decidable (AllSteps sys G t ls) := fun t => decidableAllSteps t ls
    inferInstanceAs (Decidable (G s l ∧ ∀ t ∈ sys.step s l, AllSteps sys G t ls))

theorem ReachableBy.exec {G : S → L → Prop} {s t : S} {ls : List L} (hs : ReachableBy sys G s)
    (hall : AllSteps sys G s ls) (h : Runs.exec sys s ls = some t) : ReachableBy sys G t := by
  induction ls generalizing s with
  | nil => simpa using (Option.some.inj h) ▸ hs
  | cons l ls ih =>
    simp only [exec_cons,Option.bind_eq_some_iff] at h
    obtain ⟨u,hu,ht⟩ := h
    exact ih (hs.step hall.1 hu) (hall.2 u hu) ht

theorem Reachable.exec {s t : S} {ls : List L} (hs : Reachable sys s)
    (h : Runs.exec sys s ls = some t) : Reachable sys t :=
  ReachableBy.exec hs (.of_forall (fun _ _ => trivial) s ls) h

/-- If one step keeps `P` exactly when it satisfies `G`, a whole replay keeps `P`
exactly when all its steps satisfy `G`. The invariant is only needed behind such steps. -/
theorem along_iff_allSteps {I P : S → Prop} {G : S → L → Prop}
    (hstep : ∀ s l t, I s → P s → sys.step s l = some t → (G s l → I t) ∧ (P t ↔ G s l))
    {s u : S} {ls : List L} (hI : I s) (hP : P s) (hrun : exec sys s ls = some u) :
    Along sys P s ls ↔ AllSteps sys G s ls := by
  induction ls generalizing s with
  | nil => simpa [Along,AllSteps] using hP
  | cons l ls ih =>
    simp only [exec_cons,Option.bind_eq_some_iff] at hrun
    obtain ⟨t,ht,hu⟩ := hrun
    obtain ⟨hIt,hiff⟩ := hstep s l t hI hP ht
    simp only [Along,AllSteps,hP,true_and,ht,Option.some.injEq,forall_eq']
    constructor
    · intro halong
      have hPt : P t := by cases ls <;> simp only [Along] at halong <;> tauto
      have hG := hiff.mp hPt
      exact ⟨hG,(ih (hIt hG) hPt hu).mp halong⟩
    · rintro ⟨hG,hall⟩
      exact (ih (hIt hG) (hiff.mpr hG) hu).mpr hall

theorem Reachable.allSteps_iff {G H : S → L → Prop}
    (hGH : ∀ s l t, Reachable sys s → sys.step s l = some t → (G s l ↔ H s l)) {s u : S}
    {ls : List L} (hs : Reachable sys s) (hrun : Runs.exec sys s ls = some u) :
    AllSteps sys G s ls ↔ AllSteps sys H s ls := by
  induction ls generalizing s with
  | nil => rfl
  | cons l ls ih =>
    simp only [exec_cons,Option.bind_eq_some_iff] at hrun
    obtain ⟨t,ht,hu⟩ := hrun
    simp only [AllSteps,ht,Option.some.injEq,forall_eq']
    rw [hGH s l t hs ht,ih (hs.step trivial ht) hu]

theorem Reachable.along {P : S → Prop} (h : ∀ s, Reachable sys s → P s) {s : S}
    (hs : Reachable sys s) (ls : List L) : Along sys P s ls := by
  induction ls generalizing s with
  | nil => exact h s hs
  | cons l ls ih => exact ⟨h s hs,fun t ht => ih (hs.step trivial ht)⟩

end Runs
end EventCore
