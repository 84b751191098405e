import EventCore.CheckedModels
import Mathlib.Data.Finset.Image

/-! The names of fields, mappings and assumptions decide the order in which the checker comes to them,
and so which of the links on a cycle it comes back by. -/
namespace EventCore
namespace CheckerRenaming
open ModelChecker ProvenanceSearch CheckedModels Relation

section Rename

def renameField (ρ : String → String) (d : Field) : Field := { d with field := ρ d.field }

def renameMapping (ρ : String → String) (d : Mapping) : Mapping :=
  { d with name := ρ d.name, sources := d.sources.map ρ, target := ρ d.target }

def renameAssumption (ρ : String → String) (d : Assumption) : Assumption :=
  { d with name := ρ d.name, target := ρ d.target }

def rename (ρ : String → String) : Descriptor → Descriptor
  | .field d => .field (renameField ρ d)
  | .mapping d => .mapping (renameMapping ρ d)
  | .assumption d => .assumption (renameAssumption ρ d)

def renameAll (ρ : String → String) (descriptors : List Descriptor) : List Descriptor :=
  descriptors.map (rename ρ)

def renameOptions (ρ : String → String) (options : CheckOptions) : CheckOptions :=
  { options with allowedAssumptions := options.allowedAssumptions.image ρ }

inductive Verdict
  | verified | assumed | incomplete
  deriving DecidableEq

def verdictOf : Except CheckError CheckReport → Verdict
  | .ok ⟨.verified,_⟩ => .verified
  | .ok ⟨.assumed,_⟩ => .assumed
  | .error _ => .incomplete

end Rename

def Nameless (descriptors : List Descriptor) (options : CheckOptions) : Prop :=
  ∀ ρ : String → String, Function.Injective ρ →
    verdictOf (checkDescriptors (renameAll ρ descriptors) (renameOptions ρ options)) =
      verdictOf (checkDescriptors descriptors options)

section Cycles

variable {α : Type*} {r : α → α → Prop} {ρ : α → α}

theorem transGen_map_iff (hρ : Function.Injective ρ) {y z : α} :
    TransGen (Relation.Map r ρ ρ) y z ↔ ∃ a b, TransGen r a b ∧ ρ a = y ∧ ρ b = z := by
  constructor
  · intro h
    induction h with
    | single h =>
      obtain ⟨a,b,hr,rfl,rfl⟩ := h
      exact ⟨a,b,.single hr,rfl,rfl⟩
    | tail _ h ih =>
      obtain ⟨a,b,hab,rfl,rfl⟩ := ih
      obtain ⟨b',c,hr,he,rfl⟩ := h
      obtain rfl := hρ he
      exact ⟨a,c,hab.tail hr,rfl,rfl⟩
  · rintro ⟨a,b,h,rfl,rfl⟩
    exact TransGen.lift ρ (fun a b hr => ⟨a,b,hr,rfl,rfl⟩) _ _ h

theorem reflTransGen_map_iff (hρ : Function.Injective ρ) {a b : α} :
    ReflTransGen (Relation.Map r ρ ρ) (ρ a) (ρ b) ↔ ReflTransGen r a b := by
  rw [reflTransGen_iff_eq_or_transGen,reflTransGen_iff_eq_or_transGen,transGen_map_iff hρ,
    hρ.eq_iff]
  refine or_congr_right ⟨?_,fun h => ⟨a,b,h,rfl,rfl⟩⟩
  rintro ⟨a',b',h,ha,hb⟩
  rwa [← hρ ha,← hρ hb]

end Cycles

section Invariance

variable {ρ : String → String} {descriptors : List Descriptor} {options : CheckOptions}

theorem mem_renameAll {α : Type} (kind : α → Descriptor) (renamed : α → α)
    (hkind : ∀ d, rename ρ (kind d) = kind (renamed d))
    (hold : ∀ {descriptor e}, rename ρ descriptor = kind e →
      ∃ d, kind d = descriptor ∧ renamed d = e) {e : α} :
    kind e ∈ renameAll ρ descriptors ↔ ∃ d, kind d ∈ descriptors ∧ renamed d = e := by
  rw [renameAll,List.mem_map]
  constructor
  · rintro ⟨descriptor,hmem,he⟩
    obtain ⟨d,rfl,hd⟩ := hold he
    exact ⟨d,hmem,hd⟩
  · rintro ⟨d,hmem,rfl⟩
    exact ⟨kind d,hmem,hkind d⟩

theorem field_mem_renameAll {e : Field} :
    .field e ∈ renameAll ρ descriptors ↔ ∃ d, .field d ∈ descriptors ∧ renameField ρ d = e := by
  refine mem_renameAll .field (renameField ρ) (fun _ => rfl) fun {descriptor} _ he => ?_
  cases descriptor with
  | field d => exact ⟨d,rfl,Descriptor.field.inj he⟩
  | mapping | assumption => cases he

theorem mapping_mem_renameAll {e : Mapping} :
    .mapping e ∈ renameAll ρ descriptors ↔
      ∃ d, .mapping d ∈ descriptors ∧ renameMapping ρ d = e := by
  refine mem_renameAll .mapping (renameMapping ρ) (fun _ => rfl) fun {descriptor} _ he => ?_
  cases descriptor with
  | mapping d => exact ⟨d,rfl,Descriptor.mapping.inj he⟩
  | field | assumption => cases he

theorem assumption_mem_renameAll {e : Assumption} :
    .assumption e ∈ renameAll ρ descriptors ↔
      ∃ d, .assumption d ∈ descriptors ∧ renameAssumption ρ d = e := by
  refine mem_renameAll .assumption (renameAssumption ρ) (fun _ => rfl) fun {descriptor} _ he => ?_
  cases descriptor with
  | assumption d => exact ⟨d,rfl,Descriptor.assumption.inj he⟩
  | field | mapping => cases he

variable (hρ : Function.Injective ρ)
include hρ

theorem unique_rename : UniqueIds (renameAll ρ descriptors) ↔ UniqueIds descriptors := by
  have hids : (renameAll ρ descriptors).map Descriptor.stableId =
      (descriptors.map Descriptor.stableId).map ρ := by
    rw [renameAll,List.map_map,List.map_map]
    refine List.map_congr_left fun d _ => ?_
    cases d <;> rfl
  rw [UniqueIds,hids,List.nodup_map_iff hρ,UniqueIds]

theorem modeled_rename {label : String} :
    Modeled (renameAll ρ descriptors) (ρ label) ↔ Modeled descriptors label := by
  constructor
  · rintro ⟨e,he,hlabel⟩
    obtain ⟨d,hd,rfl⟩ := field_mem_renameAll.mp he
    exact ⟨d,hd,hρ hlabel⟩
  · rintro ⟨d,hd,rfl⟩
    exact ⟨_,field_mem_renameAll.mpr ⟨d,hd,rfl⟩,rfl⟩

theorem exists_field_rename {Q : Field → Prop} (hQ : ∀ d, Q (renameField ρ d) ↔ Q d)
    {label : String} :
    (∃ e, .field e ∈ renameAll ρ descriptors ∧ e.field = ρ label ∧ Q e) ↔
      ∃ d, .field d ∈ descriptors ∧ d.field = label ∧ Q d := by
  constructor
  · rintro ⟨e,he,hlabel,hQe⟩
    obtain ⟨d,hd,rfl⟩ := field_mem_renameAll.mp he
    exact ⟨d,hd,hρ hlabel,(hQ d).mp hQe⟩
  · rintro ⟨d,hd,rfl,hQd⟩
    exact ⟨_,field_mem_renameAll.mpr ⟨d,hd,rfl⟩,rfl,(hQ d).mpr hQd⟩

theorem root_rename {label : String} :
    Root (renameAll ρ descriptors) (ρ label) ↔ Root descriptors label :=
  exists_field_rename hρ fun _ => Iff.rfl

theorem nonRoot_rename {label : String} :
    NonRoot (renameAll ρ descriptors) (ρ label) ↔ NonRoot descriptors label :=
  exists_field_rename hρ fun _ => Iff.rfl

theorem bound_rename {label : String} :
    Bound (renameAll ρ descriptors) (ρ label) ↔ Bound descriptors label := by
  constructor
  · rintro ⟨e,he,hlabel⟩
    obtain ⟨d,hd,rfl⟩ := assumption_mem_renameAll.mp he
    exact ⟨d,hd,hρ hlabel⟩
  · rintro ⟨d,hd,rfl⟩
    exact ⟨_,assumption_mem_renameAll.mpr ⟨d,hd,rfl⟩,rfl⟩

theorem acceptedAt_rename {label : String} :
    AcceptedAt (renameAll ρ descriptors) (renameOptions ρ options) (ρ label) ↔
      AcceptedAt descriptors options label := by
  have hallowed : ∀ name, ρ name ∈ (renameOptions ρ options).allowedAssumptions ↔
      name ∈ options.allowedAssumptions := fun name => hρ.mem_finset_image
  constructor
  · rintro ⟨e,he,hlabel,haccepts⟩
    obtain ⟨d,hd,rfl⟩ := assumption_mem_renameAll.mp he
    exact ⟨d,hd,hρ hlabel,haccepts.imp_right (hallowed d.name).mp⟩
  · rintro ⟨d,hd,rfl,haccepts⟩
    exact ⟨_,assumption_mem_renameAll.mpr ⟨d,hd,rfl⟩,rfl,haccepts.imp_right (hallowed d.name).mpr⟩

def renameInput (ρ : String → String) (input : Input) : Input :=
  ⟨renameMapping ρ input.recipe,ρ input.source,input.temporal⟩

omit hρ in
theorem inputs_rename (d : Mapping) :
    (renameMapping ρ d).inputs = d.inputs.map (renameInput ρ) := by
  rw [Mapping.inputs,Mapping.inputs,renameMapping,List.zip_map_left,List.map_map,List.map_map]
  rfl

theorem targeted_rename : Targeted (renameAll ρ descriptors) ↔ Targeted descriptors := by
  constructor
  · rintro ⟨hmapping,hassumption⟩
    refine ⟨fun d hd => ?_,fun d hd => ?_⟩
    · exact (modeled_rename hρ).mp (hmapping _ (mapping_mem_renameAll.mpr ⟨d,hd,rfl⟩))
    · exact (modeled_rename hρ).mp (hassumption _ (assumption_mem_renameAll.mpr ⟨d,hd,rfl⟩))
  · rintro ⟨hmapping,hassumption⟩
    refine ⟨fun e he => ?_,fun e he => ?_⟩
    · obtain ⟨d,hd,rfl⟩ := mapping_mem_renameAll.mp he
      exact (modeled_rename hρ).mpr (hmapping d hd)
    · obtain ⟨d,hd,rfl⟩ := assumption_mem_renameAll.mp he
      exact (modeled_rename hρ).mpr (hassumption d hd)

theorem provided_rename {label : String} :
    Provided (renameAll ρ descriptors) (renameOptions ρ options) (ρ label) ↔
      Provided descriptors options label := by
  constructor
  · rintro ⟨haccepted,hproduced,hsources⟩
    rw [bound_rename hρ,acceptedAt_rename hρ] at haccepted
    rw [bound_rename hρ] at hproduced hsources
    refine ⟨haccepted,fun hbound => ?_,fun hbound d hd htarget input hinput => ?_⟩
    · obtain ⟨e,he,htarget⟩ := hproduced hbound
      obtain ⟨d,hd,rfl⟩ := mapping_mem_renameAll.mp he
      exact ⟨d,hd,hρ htarget⟩
    · refine (modeled_rename hρ).mp (hsources hbound _ (mapping_mem_renameAll.mpr ⟨d,hd,rfl⟩)
        (congrArg ρ htarget) (renameInput ρ input) ?_)
      rw [inputs_rename]
      exact List.mem_map_of_mem hinput
  · rintro ⟨haccepted,hproduced,hsources⟩
    rw [← bound_rename hρ] at haccepted hproduced hsources
    rw [← acceptedAt_rename hρ] at haccepted
    refine ⟨haccepted,fun hbound => ?_,fun hbound e he htarget input hinput => ?_⟩
    · obtain ⟨d,hd,rfl⟩ := hproduced hbound
      exact ⟨_,mapping_mem_renameAll.mpr ⟨d,hd,rfl⟩,rfl⟩
    · obtain ⟨d,hd,rfl⟩ := mapping_mem_renameAll.mp he
      rw [inputs_rename] at hinput
      obtain ⟨before,hbefore,rfl⟩ := List.mem_map.mp hinput
      exact (modeled_rename hρ).mpr (hsources hbound d hd (hρ htarget) before hbefore)

theorem allProvided_rename :
    AllProvided (renameAll ρ descriptors) (renameOptions ρ options) ↔
      AllProvided descriptors options := by
  constructor
  · rintro ⟨hne,hunique,htargeted,hprovided⟩
    refine ⟨?_,(unique_rename hρ).mp hunique,(targeted_rename hρ).mp htargeted,?_⟩
    · rintro rfl
      exact hne rfl
    · exact fun label hlabel =>
        (provided_rename hρ).mp (hprovided _ ((nonRoot_rename hρ).mpr hlabel))
  · rintro ⟨hne,hunique,htargeted,hprovided⟩
    refine ⟨?_,(unique_rename hρ).mpr hunique,(targeted_rename hρ).mpr htargeted,?_⟩
    · simpa [renameAll] using hne
    · rintro _ ⟨e,he,rfl,hroot⟩
      obtain ⟨d,hd,rfl⟩ := field_mem_renameAll.mp he
      exact (provided_rename hρ).mpr (hprovided d.field ⟨d,hd,rfl,hroot⟩)

theorem supplies_rename (h : AllProvided descriptors options) {input : Input} {label : String} :
    Supplies (graphOf (renameAll ρ descriptors) (renameOptions ρ options)) input label ↔
      ∃ input' label', Supplies (graphOf descriptors options) input' label' ∧
        renameInput ρ input' = input ∧ ρ label' = label := by
  have h' := (allProvided_rename hρ).mpr h
  rw [supplies_iff h'.unique h'.targeted]
  constructor
  · rintro ⟨hroot,hbound,e,he,rfl,hinput⟩
    obtain ⟨d,hd,rfl⟩ := mapping_mem_renameAll.mp he
    rw [inputs_rename] at hinput
    obtain ⟨before,hbefore,rfl⟩ := List.mem_map.mp hinput
    have hroot' : NonRoot descriptors d.target := (nonRoot_rename hρ).mp hroot
    have hbound' : ¬ Bound descriptors d.target := mt (bound_rename hρ).mpr hbound
    exact ⟨before,d.target,(supplies_iff h.unique h.targeted).mpr
      ⟨hroot',hbound',d,hd,rfl,hbefore⟩,rfl,rfl⟩
  · rintro ⟨input,label,hsupplies,rfl,rfl⟩
    obtain ⟨hroot,hbound,d,hd,rfl,hinput⟩ := (supplies_iff h.unique h.targeted).mp hsupplies
    refine ⟨(nonRoot_rename hρ).mpr hroot,mt (bound_rename hρ).mp hbound,
      _,mapping_mem_renameAll.mpr ⟨d,hd,rfl⟩,rfl,?_⟩
    rw [inputs_rename]
    exact List.mem_map_of_mem hinput

theorem hasNonTemporalSeed_rename (h : AllProvided descriptors options) {label : String} :
    (graphOf (renameAll ρ descriptors) (renameOptions ρ options)).hasNonTemporalSeed (ρ label) =
      (graphOf descriptors options).hasNonTemporalSeed label := by
  have h' := (allProvided_rename hρ).mpr h
  rw [Bool.eq_iff_iff,hasNonTemporalSeed_iff h'.unique,hasNonTemporalSeed_iff h.unique,
    root_rename hρ]
  refine or_congr_right ⟨?_,?_⟩
  · rintro ⟨e,he,htarget,hall⟩
    obtain ⟨d,hd,rfl⟩ := mapping_mem_renameAll.mp he
    exact ⟨d,hd,hρ htarget,hall⟩
  · rintro ⟨d,hd,rfl,hall⟩
    exact ⟨_,mapping_mem_renameAll.mpr ⟨d,hd,rfl⟩,rfl,hall⟩

/-- The links after the renaming are those before it, by their new names. -/
theorem link_rename (h : AllProvided descriptors options) :
    Link (graphOf (renameAll ρ descriptors) (renameOptions ρ options)) =
      Relation.Map (Link (graphOf descriptors options)) ρ ρ := by
  funext y z
  refine propext ⟨?_,?_⟩
  · rintro ⟨input,hinput,rfl⟩
    obtain ⟨before,label,hsupplies,rfl,rfl⟩ := (supplies_rename hρ h).mp hinput
    exact ⟨label,before.source,⟨before,hsupplies,rfl⟩,rfl,rfl⟩
  · rintro ⟨label,_,⟨input,hinput,rfl⟩,rfl,rfl⟩
    exact ⟨_,(supplies_rename hρ h).mpr ⟨input,label,hinput,rfl,rfl⟩,rfl⟩

theorem strictLink_rename (h : AllProvided descriptors options) :
    StrictLink (graphOf (renameAll ρ descriptors) (renameOptions ρ options)) =
      Relation.Map (StrictLink (graphOf descriptors options)) ρ ρ := by
  have hstrict : ∀ input, Strict (graphOf (renameAll ρ descriptors) (renameOptions ρ options))
      (renameInput ρ input) ↔ Strict (graphOf descriptors options) input := by
    intro input
    exact or_congr_right (by rw [renameInput,hasNonTemporalSeed_rename hρ h])
  funext y z
  refine propext ⟨?_,?_⟩
  · rintro ⟨input,hinput,hinput',rfl⟩
    obtain ⟨before,label,hsupplies,rfl,rfl⟩ := (supplies_rename hρ h).mp hinput
    exact ⟨label,before.source,⟨before,hsupplies,(hstrict before).mp hinput',rfl⟩,rfl,rfl⟩
  · rintro ⟨label,_,⟨input,hinput,hinput',rfl⟩,rfl,rfl⟩
    exact ⟨_,(supplies_rename hρ h).mpr ⟨input,label,hinput,rfl,rfl⟩,(hstrict input).mpr hinput',rfl⟩

theorem accepted_rename :
    (∃ label, NonRoot (renameAll ρ descriptors) label ∧
      AcceptedAt (renameAll ρ descriptors) (renameOptions ρ options) label) ↔
    ∃ label, NonRoot descriptors label ∧ AcceptedAt descriptors options label := by
  constructor
  · rintro ⟨label,⟨e,he,hlabel,hroot⟩,haccepted⟩
    obtain ⟨d,hd,rfl⟩ := field_mem_renameAll.mp he
    obtain rfl : ρ d.field = label := hlabel
    exact ⟨d.field,⟨d,hd,rfl,hroot⟩,(acceptedAt_rename hρ).mp haccepted⟩
  · rintro ⟨label,hroot,haccepted⟩
    exact ⟨ρ label,(nonRoot_rename hρ).mpr hroot,(acceptedAt_rename hρ).mpr haccepted⟩

end Invariance

section Verdicts

variable {descriptors : List Descriptor} {options : CheckOptions}

def Unmixed (descriptors : List Descriptor) (options : CheckOptions) : Prop :=
  ∀ label source, StrictLink (graphOf descriptors options) label source →
    ¬ ReflTransGen (Link (graphOf descriptors options)) source label

/-- What the verdict can be told from without the names: something is missing, or a cycle has strict
links only, or no cycle has any. -/
def Decided (descriptors : List Descriptor) (options : CheckOptions) : Prop :=
  ¬ AllProvided descriptors options ∨
  (∃ label, TransGen (StrictLink (graphOf descriptors options)) label label) ∨
  Unmixed descriptors options

theorem unmixed_rename {ρ : String → String} (hρ : Function.Injective ρ)
    (hprovided : AllProvided descriptors options) (h : Unmixed descriptors options) :
    Unmixed (renameAll ρ descriptors) (renameOptions ρ options) := by
  rw [Unmixed,link_rename hρ hprovided,strictLink_rename hρ hprovided]
  rintro _ _ ⟨label,source,hstrict,rfl,rfl⟩
  rw [reflTransGen_map_iff hρ]
  exact h label source hstrict

theorem verdictOf_eq_incomplete {result : Except CheckError CheckReport} :
    verdictOf result = .incomplete ↔ ¬ ∃ report, result = .ok report := by
  rcases result with e | ⟨_ | _,warnings⟩ <;> simp [verdictOf]

theorem verdictOf_ok (report : CheckReport) :
    verdictOf (.ok report) = if report.status = .assumed then .assumed else .verified := by
  rcases report with ⟨_ | _,warnings⟩ <;> rfl

theorem incomplete_of_not_provided (h : ¬ AllProvided descriptors options) :
    verdictOf (checkDescriptors descriptors options) = .incomplete := by
  rw [verdictOf_eq_incomplete]
  rintro ⟨report,hreport⟩
  exact h (reports_of_ok hreport).allProvided

theorem incomplete_of_cycle {label : String}
    (hcycle : TransGen (StrictLink (graphOf descriptors options)) label label) :
    verdictOf (checkDescriptors descriptors options) = .incomplete := by
  rw [verdictOf_eq_incomplete]
  rintro ⟨report,hreport⟩
  have hreports := reports_of_ok hreport
  obtain ⟨_,hstrict,_⟩ := TransGen.head'_iff.mp hcycle
  obtain ⟨input,hinput,_⟩ := hstrict.link
  obtain ⟨hroot,_⟩ := (supplies_iff hreports.unique hreports.targeted).mp hinput
  have hmodeled := ((nonRoot_iff hreports.unique).mp hroot).1
  exact (hreports.grounded label hmodeled).no_cycle (transGen_swap.mpr hcycle)

theorem verdict_of_unmixed (hprovided : AllProvided descriptors options)
    (hunmixed : Unmixed descriptors options) :
    verdictOf (checkDescriptors descriptors options) = .assumed ∧
      (∃ label, NonRoot descriptors label ∧ AcceptedAt descriptors options label) ∨
    verdictOf (checkDescriptors descriptors options) = .verified ∧
      ¬ ∃ label, NonRoot descriptors label ∧ AcceptedAt descriptors options label := by
  obtain ⟨report,hreport⟩ := ok_of_sustained hprovided.nonempty hprovided.unique hprovided.targeted
    ⟨fun _ => hprovided.wired,hunmixed⟩
  have hreports := reports_of_ok hreport
  have hassumed := hreports.assumed.trans (exists_congr fun _ => accepted_iff hreports.unique)
  rw [hreport,verdictOf_ok]
  by_cases hstatus : report.status = .assumed
  · exact .inl ⟨if_pos hstatus,hassumed.mp hstatus⟩
  · exact .inr ⟨if_neg hstatus,mt hassumed.mpr hstatus⟩

theorem nameless_of_decided (h : Decided descriptors options) : Nameless descriptors options := by
  intro ρ hρ
  by_cases hprovided : AllProvided descriptors options
  · have hprovided' := (allProvided_rename hρ).mpr hprovided
    rcases h with h | ⟨label,hcycle⟩ | hunmixed
    · exact absurd hprovided h
    · have hcycle' : TransGen (StrictLink (graphOf (renameAll ρ descriptors)
          (renameOptions ρ options))) (ρ label) (ρ label) := by
        rw [strictLink_rename hρ hprovided]
        exact (transGen_map_iff hρ).mpr ⟨label,label,hcycle,rfl,rfl⟩
      rw [incomplete_of_cycle hcycle,incomplete_of_cycle hcycle']
    · have hunmixed' := unmixed_rename hρ hprovided hunmixed
      rcases verdict_of_unmixed hprovided hunmixed with ⟨hv,ha⟩ | ⟨hv,ha⟩ <;>
        rcases verdict_of_unmixed hprovided' hunmixed' with ⟨hv',ha'⟩ | ⟨hv',ha'⟩
      · rw [hv,hv']
      · exact absurd ((accepted_rename hρ).mpr ha) ha'
      · exact absurd ((accepted_rename hρ).mp ha') ha
      · rw [hv,hv']
  · rw [incomplete_of_not_provided hprovided,
      incomplete_of_not_provided (mt (allProvided_rename hρ).mp hprovided)]

end Verdicts

section First

variable {descriptors : List Descriptor} {options : CheckOptions}

/-- The new name of the entry comes before all others. -/
def putFirst (entry label : String) : String := (if label = entry then "0" else "1") ++ label

theorem putFirst_injective (entry : String) : Function.Injective (putFirst entry) := by
  intro a b h
  have htail : ∀ label, (putFirst entry label).toList.tail = label.toList := by
    intro label
    rw [putFirst]
    split_ifs <;> simp
  exact String.toList_inj.mp (by rw [← htail a,← htail b,h])

theorem putFirst_le (entry label : String) : putFirst entry entry ≤ putFirst entry label := by
  by_cases h : label = entry
  · rw [h]
  · rw [putFirst,putFirst,if_pos rfl,if_neg h,String.le_iff_toList_le]
    refine le_of_lt ?_
    simp only [String.toList_append]
    exact List.Lex.rel (by decide)

theorem iter_first {V : Type} {m : HashMap String V} {entry : String} (h : entry ∈ m)
    (hfirst : ∀ label ∈ m, entry ≤ label) : ∃ d others, iter m = (entry,d) :: others := by
  obtain ⟨d,hd⟩ := HashMap.exists_of_mem h
  have hmem : (entry,d) ∈ iter m := mem_iter.mpr hd
  have hsorted : (iter m).Pairwise fun p q => p.1 ≤ q.1 := List.pairwise_insertionSort _ _
  rcases hiter : iter m with _ | ⟨p,others⟩
  · rw [hiter] at hmem
    cases hmem
  · have hp : p ∈ iter m := by rw [hiter]; exact List.mem_cons_self
    have hle : p.1 ≤ entry := by
      rw [hiter] at hmem hsorted
      rcases List.mem_cons.mp hmem with he | hothers
      · exact (congrArg Prod.fst he).ge
      · exact (List.pairwise_cons.mp hsorted).1 _ hothers
    have he : p.1 = entry := hle.antisymm (hfirst p.1 (HashMap.mem_of_get? (mem_iter.mp hp)))
    exact ⟨p.2,others,by rw [← he]⟩

/-- If the source of a strict link on a cycle comes first, the search comes back by this link. -/
theorem unmixed_of_nameless {report : CheckReport}
    (hreport : checkDescriptors descriptors options = .ok report)
    (h : Nameless descriptors options) : Unmixed descriptors options := by
  intro label source hstrict hback
  have hρ := putFirst_injective source
  have hprovided := (reports_of_ok hreport).allProvided
  have hprovided' := (allProvided_rename hρ).mpr hprovided
  obtain ⟨report',hreport'⟩ : ∃ report', checkDescriptors (renameAll (putFirst source) descriptors)
      (renameOptions (putFirst source) options) = .ok report' := by
    by_contra hincomplete
    rw [← verdictOf_eq_incomplete,h _ hρ,verdictOf_eq_incomplete] at hincomplete
    exact hincomplete ⟨report,hreport⟩
  have hmodeled : Modeled descriptors source := by
    obtain ⟨input,hinput,rfl⟩ := hstrict.link
    obtain ⟨hroot,hbound,d,hd,htarget,hinput⟩ :=
      (supplies_iff hprovided.unique hprovided.targeted).mp hinput
    exact (hprovided.provided label hroot).sources hbound d hd htarget input hinput
  obtain ⟨d,others,hfirst⟩ := iter_first (mem_fields_iff.mpr ((modeled_rename hρ).mpr hmodeled))
    fun other hother => by
      obtain ⟨e,he,rfl⟩ := mem_fields_iff.mp hother
      obtain ⟨before,_,rfl⟩ := field_mem_renameAll.mp he
      exact putFirst_le source before.field
  have hback' : ReflTransGen (Link (graphOf (renameAll (putFirst source) descriptors)
      (renameOptions (putFirst source) options))) (putFirst source source)
      (putFirst source label) := by
    rw [link_rename hρ hprovided,reflTransGen_map_iff hρ]
    exact hback
  refine first_strict hreport' hfirst hback' ?_
  rw [strictLink_rename hρ hprovided]
  exact ⟨label,source,hstrict,rfl,rfl⟩

end First

/-- Names do not matter if the verdict can be told without them; and if some naming succeeds, they
matter unless no strict link is on a cycle. -/
theorem nameless_iff (descriptors : List Descriptor) (options : CheckOptions) :
    (Decided descriptors options → Nameless descriptors options) ∧
    ((∃ ρ : String → String, Function.Injective ρ ∧ ∃ report,
        checkDescriptors (renameAll ρ descriptors) (renameOptions ρ options) = .ok report) →
      (Nameless descriptors options ↔ Unmixed descriptors options)) := by
  refine ⟨nameless_of_decided,?_⟩
  rintro ⟨ρ,hρ,report,hreport⟩
  refine ⟨fun h => ?_,fun h => nameless_of_decided (.inr (.inr h))⟩
  have hsucceeds : ∃ report, checkDescriptors descriptors options = .ok report := by
    by_contra hincomplete
    rw [← verdictOf_eq_incomplete,← h ρ hρ,verdictOf_eq_incomplete] at hincomplete
    exact hincomplete ⟨report,hreport⟩
  obtain ⟨report,hreport⟩ := hsucceeds
  exact unmixed_of_nameless hreport h

section Models

/-- A total of all sales. -/
def salesModel : List Descriptor :=
  [.field ⟨"event","Sold.amount",true,"src/shop.rs:15"⟩,
    .field ⟨"read_model","Shop.total",false,"src/shop.rs:5"⟩,
    .mapping ⟨"Sum",["Sold.amount"],"Shop.total",[false],"src/shop.rs:19"⟩]

theorem unmixed_salesModel : Unmixed salesModel .default := by
  have hunique : UniqueIds salesModel := by unfold UniqueIds; decide +kernel
  have htargeted : Targeted salesModel := by constructor <;> simp [salesModel,Modeled]
  have hsupplies : ∀ {input label}, Supplies (graphOf salesModel .default) input label →
      label = "Shop.total" ∧ input.source = "Sold.amount" := by
    intro input label h
    obtain ⟨-,-,d,hd,rfl,hinput⟩ := (supplies_iff hunique htargeted).mp h
    have hd' : d = ⟨"Sum",["Sold.amount"],"Shop.total",[false],"src/shop.rs:19"⟩ := by
      simpa [salesModel] using hd
    subst hd'
    refine ⟨rfl,?_⟩
    obtain rfl := List.mem_singleton.mp hinput
    rfl
  rintro label source ⟨input,h,-,rfl⟩ hpath
  obtain ⟨rfl,hsource⟩ := hsupplies h
  rw [hsource] at hpath
  rcases hpath.cases_head with heq | ⟨y,⟨input',h',-⟩,-⟩
  · exact absurd heq (by decide)
  · exact absurd (hsupplies h').1 (by decide)

/-- A stock that is counted from the level, and a level that is carried from the stock. -/
def stockModel : List Descriptor :=
  [.field ⟨"read_model","Shop.level",false,"src/shop.rs:3"⟩,
    .field ⟨"read_model","Shop.stock",false,"src/shop.rs:4"⟩,
    .mapping ⟨"Count",["Shop.stock"],"Shop.level",[false],"src/shop.rs:7"⟩,
    .mapping ⟨"Carry",["Shop.level"],"Shop.stock",[true],"src/shop.rs:11"⟩]

def swapped : String → String := Equiv.swap "Shop.level" "Shop.stock"

/-- The names of the sales model do not matter, and the stock model is a mixed one. -/
theorem nameless_iff_shop : Nameless salesModel .default ∧ ¬ Unmixed stockModel .default := by
  refine ⟨(nameless_iff _ _).1 (.inr (.inr unmixed_salesModel)),fun hunmixed => ?_⟩
  have hsucceeds : ∃ report, checkDescriptors (renameAll id stockModel)
      (renameOptions id .default) = .ok report := by
    by_contra h
    rw [← verdictOf_eq_incomplete] at h
    revert h
    decide +kernel
  have hnameless : Nameless stockModel .default :=
    ((nameless_iff _ _).2 ⟨id,Function.injective_id,hsucceeds⟩).mpr hunmixed
  have hswap := hnameless swapped (Equiv.swap _ _).injective
  revert hswap
  decide +kernel

/-- The model is verified, and incomplete when its two fields exchange their names. -/
theorem swapped_incomplete :
    (verdictOf (checkDescriptors stockModel .default) = .verified ∧
      verdictOf (checkDescriptors (renameAll swapped stockModel)
        (renameOptions swapped .default)) = .incomplete) ∧
    ¬ ∀ (descriptors : List Descriptor) (options : CheckOptions), Nameless descriptors options := by
  have hbefore : verdictOf (checkDescriptors stockModel .default) = .verified := by
    decide +kernel
  have hafter : verdictOf (checkDescriptors (renameAll swapped stockModel)
      (renameOptions swapped .default)) = .incomplete := by
    decide +kernel
  refine ⟨⟨hbefore,hafter⟩,fun hall => ?_⟩
  have h := hall stockModel .default swapped (Equiv.swap _ _).injective
  rw [hbefore,hafter] at h
  cases h

end Models

end CheckerRenaming
end EventCore
