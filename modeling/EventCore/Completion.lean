import EventCore.Interaction
import Mathlib.Logic.Hydra

/-! Runs that can be brought to an end: a system that can always take a step that lowers what is
still to do, and programs, of which every step that one of them takes lowers what they all have to
do together. -/
namespace EventCore
namespace Completion
open Interaction Runs

/-- The rule of completion: if some step lowers the measure wherever the run is not complete, it
can be completed. -/
theorem exists_complete {S L M : Type*} {sys : System S L} {G : S → L → Prop} {μ : S → M}
    {r : M → M → Prop} (hwf : WellFounded r) {I complete : S → Prop}
    (hstep : ∀ s, I s → ¬ complete s →
      ∃ l t, G s l ∧ sys.step s l = some t ∧ I t ∧ r (μ t) (μ s))
    {s : S} (hs : I s) : ∃ ls t, AllSteps sys G s ls ∧ exec sys s ls = some t ∧ complete t := by
  induction hm : μ s using hwf.induction generalizing s with
  | _ m ih =>
    subst hm
    by_cases hcomplete : complete s
    · exact ⟨[],s,trivial,rfl,hcomplete⟩
    · obtain ⟨l,t,hl,ht,hI,hlower⟩ := hstep s hs hcomplete
      obtain ⟨ls,u,hall,hexec,hu⟩ := ih (μ t) hlower hI rfl
      refine ⟨l :: ls,u,⟨hl,fun t' ht' => ?_⟩,?_,hu⟩
      · rw [ht] at ht'
        exact Option.some.inj ht' ▸ hall
      · rw [exec_cons,ht]
        exact hexec

section Programs

variable {I Q : Type} {A : Q → Type} {W α : Type}

def Next (p' p : Program Q A α) : Prop := ∃ q k a, p = .ask q k ∧ p' = k a

theorem next_wellFounded : WellFounded (Next : Program Q A α → Program Q A α → Prop) := by
  refine ⟨fun p => ?_⟩
  induction p with
  | done a =>
    refine ⟨_,?_⟩
    rintro _ ⟨_,_,_,h,_⟩
    cases h
  | cut =>
    refine ⟨_,?_⟩
    rintro _ ⟨_,_,_,h,_⟩
    cases h
  | ask q k ih =>
    refine ⟨_,?_⟩
    rintro _ ⟨q',k',a,h,rfl⟩
    cases h
    exact ih a

def remaining : Client Q A α → Program Q A α
  | .running p => p
  | _ => .cut

def toDo (s : State I Q A W α) (clients : Finset I) : Multiset (Program Q A α) :=
  clients.val.map fun i => remaining (s.client i)

variable [DecidableEq I] {s t : State I Q A W α} {clients : Finset I} {i : I}

theorem toDo_erase (hi : i ∈ clients) (hothers : ∀ j, j ≠ i → t.client j = s.client j) :
    toDo s clients = {remaining (s.client i)} + toDo t (clients.erase i) := by
  have hrest : (clients.erase i).val.map (fun j => remaining (t.client j)) =
      (clients.erase i).val.map fun j => remaining (s.client j) :=
    Multiset.map_congr rfl fun j hj => by rw [hothers j (Finset.ne_of_mem_erase hj)]
  rw [toDo,toDo,hrest,Multiset.singleton_add,← Multiset.map_cons (fun j => remaining (s.client j)),
    Finset.erase_val,Multiset.cons_erase (Finset.mem_val.mpr hi)]

theorem toDo_step (hi : i ∈ clients) (hothers : ∀ j, j ≠ i → t.client j = s.client j)
    (hnext : Next (remaining (t.client i)) (remaining (s.client i))) :
    Relation.CutExpand Next (toDo t clients) (toDo s clients) := by
  rw [toDo_erase hi hothers,toDo_erase (s := t) (t := t) hi fun _ _ => rfl]
  exact Relation.cutExpand_single_add hnext _

theorem toDo_end (hi : i ∈ clients) (hothers : ∀ j, j ≠ i → t.client j = s.client j) :
    Relation.CutExpand Next (toDo t (clients.erase i)) (toDo s clients) := by
  refine ⟨0,remaining (s.client i),fun _ h => absurd h (Multiset.notMem_zero _),?_⟩
  rw [toDo_erase hi hothers,add_zero,add_comm]

end Programs

end Completion
end EventCore
