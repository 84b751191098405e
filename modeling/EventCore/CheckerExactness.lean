import EventCore.CheckedModels

/-! Without temporal sources the checker succeeds exactly on complete models. -/
namespace EventCore
namespace CheckerExactness
open ModelChecker ProvenanceSearch CheckedModels Relation

variable {descriptors : List Descriptor} {options : CheckOptions}

/-- From a source to the target of a mapping, where the target is neither a root nor accepted. -/
def Feeds (descriptors : List Descriptor) (options : CheckOptions) (source target : String) : Prop :=
  ∃ d, .mapping d ∈ descriptors ∧ d.target = target ∧ source ∈ d.sources ∧
    NonRoot descriptors target ∧ ¬ AcceptedAt descriptors options target

structure Complete (descriptors : List Descriptor) (options : CheckOptions) : Prop where
  unique : UniqueIds descriptors
  targeted : Targeted descriptors
  accepted : ∀ label, NonRoot descriptors label → Bound descriptors label →
    AcceptedAt descriptors options label
  produced : ∀ label, NonRoot descriptors label → ¬ Bound descriptors label →
    ∃ d, .mapping d ∈ descriptors ∧ d.target = label
  sources : ∀ label, NonRoot descriptors label → ¬ Bound descriptors label →
    ∀ d, .mapping d ∈ descriptors → d.target = label →
      ∀ source ∈ d.sources, Modeled descriptors source
  acyclic : ∀ label, ¬ TransGen (Feeds descriptors options) label label

def Ordinary (descriptors : List Descriptor) : Prop :=
  ∀ d, .mapping d ∈ descriptors → ∀ temporal ∈ d.temporalSources, temporal = false

theorem complete_iff (hne : descriptors ≠ []) (hflagged : Flagged descriptors) :
    Complete descriptors options ↔ AllProvided descriptors options ∧
      ∀ label, ¬ TransGen (Feeds descriptors options) label label := by
  constructor
  · intro h
    refine ⟨⟨hne,h.unique,h.targeted,fun label hlabel => ?_⟩,h.acyclic⟩
    refine ⟨h.accepted label hlabel,h.produced label hlabel,?_⟩
    intro hbound d hd htarget input hinput
    have hsource : input.source ∈ d.sources := (mem_sources_iff (hflagged d hd)).mpr ⟨input,hinput,rfl⟩
    exact h.sources label hlabel hbound d hd htarget _ hsource
  · rintro ⟨h,hacyclic⟩
    refine ⟨h.unique,h.targeted,fun label hlabel => (h.provided label hlabel).accepted,
      fun label hlabel => (h.provided label hlabel).produced,?_,hacyclic⟩
    intro label hlabel hbound d hd htarget source hsource
    obtain ⟨input,hinput,rfl⟩ := (mem_sources_iff (hflagged d hd)).mp hsource
    exact (h.provided label hlabel).sources hbound d hd htarget input hinput

theorem strictLink_of_feeds (h : AllProvided descriptors options) (hflagged : Flagged descriptors)
    (hordinary : Ordinary descriptors) {source target : String}
    (hfeeds : Feeds descriptors options source target) :
    StrictLink (graphOf descriptors options) target source := by
  obtain ⟨d,hd,htarget,hsource,hroot,haccepted⟩ := hfeeds
  obtain ⟨input,hinput,hinput'⟩ := (mem_sources_iff (hflagged d hd)).mp hsource
  have hbound : ¬ Bound descriptors target :=
    fun hbound => haccepted ((h.provided target hroot).accepted hbound)
  exact ⟨input,(supplies_iff h.unique h.targeted).mpr ⟨hroot,hbound,d,hd,htarget,hinput⟩,
    .inl (hordinary d hd _ (temporal_of_mem_inputs hinput)),hinput'⟩

theorem feeds_of_link (h : AllProvided descriptors options) (hflagged : Flagged descriptors)
    {source target : String} (hlink : Link (graphOf descriptors options) target source) :
    Feeds descriptors options source target := by
  obtain ⟨input,hinput,rfl⟩ := hlink
  obtain ⟨hroot,hbound,d,hd,htarget,hinput⟩ := (supplies_iff h.unique h.targeted).mp hinput
  refine ⟨d,hd,htarget,(mem_sources_iff (hflagged d hd)).mpr ⟨input,hinput,rfl⟩,hroot,?_⟩
  rintro ⟨boundary,hboundary,htarget',_⟩
  exact hbound ⟨boundary,hboundary,htarget'⟩

theorem acyclic_of_reports {report : CheckReport} (h : Reports descriptors options report)
    (hflagged : Flagged descriptors) (hordinary : Ordinary descriptors) (label : String) :
    ¬ TransGen (Feeds descriptors options) label label := by
  intro hcycle
  have hprovided := h.allProvided
  obtain ⟨_,_,⟨_,_,_,_,hroot,_⟩⟩ := TransGen.tail'_iff.mp hcycle
  have hlabel := ((nonRoot_iff h.unique).mp hroot).1
  have hstrict : TransGen (fun source target =>
      StrictLink (graphOf descriptors options) target source) label label :=
    TransGen.mono (fun _ _ => strictLink_of_feeds hprovided hflagged hordinary) _ _ hcycle
  exact (h.grounded label hlabel).no_cycle hstrict

theorem sustained_of_acyclic (h : AllProvided descriptors options) (hflagged : Flagged descriptors)
    (hacyclic : ∀ label, ¬ TransGen (Feeds descriptors options) label label) :
    Sustained (graphOf descriptors options) := by
  refine ⟨fun label => h.wired,fun target source hstrict hback => ?_⟩
  have hfeeds := feeds_of_link h hflagged hstrict.link
  have hback' : ReflTransGen (Feeds descriptors options) target source :=
    reflTransGen_swap.mp (ReflTransGen.mono (fun _ _ => feeds_of_link h hflagged) _ _ hback)
  exact hacyclic target (TransGen.tail' hback' hfeeds)

/-- On a set without temporal sources the check succeeds exactly if it is complete, with an
assumption exactly if one was accepted, and it always ends. -/
theorem check_exact (hne : descriptors ≠ []) (hflagged : Flagged descriptors)
    (hordinary : Ordinary descriptors) :
    ((∃ report, checkDescriptors descriptors options = .ok report) ↔
      Complete descriptors options) ∧
    (∀ report, checkDescriptors descriptors options = .ok report →
      (report.status = .assumed ↔
        ∃ label, NonRoot descriptors label ∧ AcceptedAt descriptors options label)) ∧
    ∀ fuel, descriptors.length < fuel →
      checkReferences fuel descriptors options = some (checkDescriptors descriptors options) := by
  refine ⟨?_,fun report hreport => ?_,fun fuel hfuel => checkReferences_eq options hfuel⟩
  · rw [complete_iff hne hflagged]
    constructor
    · rintro ⟨report,hreport⟩
      have hreports := reports_of_ok hreport
      exact ⟨hreports.allProvided,acyclic_of_reports hreports hflagged hordinary⟩
    · rintro ⟨hprovided,hacyclic⟩
      exact ok_of_sustained hne hprovided.unique hprovided.targeted
        (sustained_of_acyclic hprovided hflagged hacyclic)
  · have hreports := reports_of_ok hreport
    rw [hreports.assumed]
    exact exists_congr fun label => accepted_iff hreports.unique

section Sum

def sumModel : List Descriptor :=
  [.field ⟨"input","Input.left",true,"src/sum.rs:1"⟩,
    .field ⟨"input","Input.right",true,"src/sum.rs:2"⟩,
    .field ⟨"output","Output.sum",false,"src/sum.rs:5"⟩,
    .mapping ⟨"Sum",["Input.left","Input.right"],"Output.sum",[false,false],"src/sum.rs:8"⟩]

theorem check_exact_sum : Complete sumModel .default :=
  (check_exact (by decide) (by simp [Flagged,sumModel]) (by simp [Ordinary,sumModel])).1.mp
    ⟨⟨.verified,[]⟩,by decide +kernel⟩

end Sum

end CheckerExactness
end EventCore
