import EventCore.CheckedModels
import EventCore.Derivations

/-! What a verified model is worth: every field can be produced if every temporal source has a seed
that does without it. -/
namespace EventCore
namespace CheckerSoundness
open ModelChecker ProvenanceSearch CheckedModels Derivations

variable {descriptors : List Descriptor} {options : CheckOptions} {report : CheckReport}

def Maps (descriptors : List Descriptor) (sources : List String) (target : String) : Prop :=
  ∃ d, .mapping d ∈ descriptors ∧ d.sources = sources ∧ d.target = target

def Producible (descriptors : List Descriptor) : String → Prop :=
  Derivable (Root descriptors) (Maps descriptors)

/-- A temporal source of a mapping to a field that is no root. -/
def Carried (descriptors : List Descriptor) (label : String) : Prop :=
  ∃ d, .mapping d ∈ descriptors ∧ NonRoot descriptors d.target ∧
    ∃ input ∈ d.inputs, input.temporal = true ∧ input.source = label

/-- A carried field that is no root has a mapping from sources that can be produced without it. -/
def Seeded (descriptors : List Descriptor) : Prop :=
  ∀ label, Carried descriptors label → NonRoot descriptors label →
    ∃ d, .mapping d ∈ descriptors ∧ d.target = label ∧
      ∀ source ∈ d.sources, Without (Root descriptors) (Maps descriptors) label source

theorem producible_of_seeded (hseeded : Seeded descriptors) {label : String}
    (hcarried : Carried descriptors label) (hroot : NonRoot descriptors label) :
    Producible descriptors label := by
  obtain ⟨d,hd,htarget,hsources⟩ := hseeded label hcarried hroot
  exact .rule ⟨d,hd,rfl,htarget⟩ fun source hsource => (hsources source hsource).derivable

/-- Down the strict links from a field, nothing but carried fields are met that are not produced by
what is further down. -/
theorem producible_of_grounded (hreports : Reports descriptors options report)
    (hstatus : report.status = .verified) (hflagged : Flagged descriptors)
    (hseeded : Seeded descriptors) {label : String} (hmodeled : Modeled descriptors label)
    (h : Grounded (graphOf descriptors options) label) : Producible descriptors label := by
  have hnone : ∀ label, NonRoot descriptors label → ¬ AcceptedAt descriptors options label := by
    intro label hroot haccepted
    have hassumed := hreports.assumed.mpr
      ⟨label,(accepted_iff hreports.unique).mpr ⟨hroot,haccepted⟩⟩
    simp [hstatus] at hassumed
  induction h with
  | @intro label _ _ ih =>
    by_cases hlabel : Root descriptors label
    · exact .given hlabel
    have hroot : NonRoot descriptors label := (nonRoot_iff hreports.unique).mpr ⟨hmodeled,hlabel⟩
    have hprovided := hreports.allProvided.provided label hroot
    have hbound : ¬ Bound descriptors label :=
      fun hbound => hnone label hroot (hprovided.accepted hbound)
    obtain ⟨d,hd,htarget⟩ := hprovided.produced hbound
    refine .rule ⟨d,hd,rfl,htarget⟩ fun source hsource => ?_
    obtain ⟨input,hinput,rfl⟩ := (mem_sources_iff (hflagged d hd)).mp hsource
    have hsource' : Modeled descriptors input.source :=
      hprovided.sources hbound d hd htarget input hinput
    cases htemporal : input.temporal with
    | false =>
      refine ih input.source ⟨input,?_,.inl htemporal,rfl⟩ hsource'
      exact (supplies_iff hreports.unique hreports.targeted).mpr ⟨hroot,hbound,d,hd,htarget,hinput⟩
    | true =>
      by_cases hsourceRoot : Root descriptors input.source
      · exact .given hsourceRoot
      · exact producible_of_seeded hseeded ⟨d,hd,htarget ▸ hroot,input,hinput,htemporal,rfl⟩
          ((nonRoot_iff hreports.unique).mpr ⟨hsource',hsourceRoot⟩)

/-- A verified model has only fields that can be produced exactly if its carried fields have seeds
that do without them. -/
theorem verified_producible_iff (hflagged : Flagged descriptors)
    (hreport : checkDescriptors descriptors options = .ok report)
    (hstatus : report.status = .verified) :
    (∀ label, Modeled descriptors label → Producible descriptors label) ↔ Seeded descriptors := by
  have hreports := reports_of_ok hreport
  constructor
  · intro h label _ hroot
    obtain ⟨hmodeled,hlabel⟩ := (nonRoot_iff hreports.unique).mp hroot
    rcases derivable_iff_independent.mp (h label hmodeled) with hgiven | ⟨sources,hmaps,hsources⟩
    · exact absurd hgiven hlabel
    · obtain ⟨d,hd,rfl,htarget⟩ := hmaps
      exact ⟨d,hd,htarget,hsources⟩
  · exact fun hseeded label hmodeled =>
      producible_of_grounded hreports hstatus hflagged hseeded hmodeled
        (hreports.grounded label hmodeled)

section History

def amount : Field := ⟨"input","Input.amount",true,"src/history.rs:1"⟩

def balance : Field := ⟨"read_model","History.balance",false,"src/history.rs:4"⟩

def total : Field := ⟨"read_model","History.total",false,"src/history.rs:5"⟩

def creditBalance : Mapping :=
  ⟨"CreditBalance",["History.balance","Input.amount"],"History.balance",[true,false],
    "src/history.rs:8"⟩

def initialBalance : Mapping :=
  ⟨"InitialBalance",["Input.amount"],"History.balance",[false],"src/history.rs:14"⟩

/-- A balance that is carried on, from an amount to begin with. -/
def creditModel : List Descriptor :=
  [.field amount,.field balance,.mapping creditBalance,.mapping initialBalance]

theorem seeded_credit : Seeded creditModel := by
  rintro label ⟨d,hd,_,input,hinput,htemporal,rfl⟩ _
  have hsource : input.source = "History.balance" := by
    simp only [creditModel,List.mem_cons,reduceCtorEq,Descriptor.mapping.injEq,List.not_mem_nil,
      or_false,false_or] at hd
    rcases hd with rfl | rfl
    · simp only [Mapping.inputs,creditBalance,List.zip_cons_cons,List.zip_nil_right,List.map_cons,
        List.map_nil,List.mem_cons,List.not_mem_nil,or_false] at hinput
      rcases hinput with rfl | rfl
      · rfl
      · cases htemporal
    · simp only [Mapping.inputs,initialBalance,List.zip_cons_cons,List.zip_nil_right,List.map_cons,
        List.map_nil,List.mem_cons,List.not_mem_nil,or_false] at hinput
      rw [hinput] at htemporal
      cases htemporal
  rw [hsource]
  refine ⟨initialBalance,by decide,rfl,fun source hsource => ?_⟩
  obtain rfl : source = "Input.amount" := by simpa [initialBalance] using hsource
  exact .given ⟨⟨amount,by decide,rfl,rfl⟩,by decide⟩

theorem verified_producible_credit :
    Seeded creditModel ∧ ∀ label, Modeled creditModel label → Producible creditModel label := by
  obtain ⟨report,hreport,hstatus⟩ := exists_report
    (by decide +kernel : (checkDescriptors creditModel .default).toOption.map CheckReport.status =
      some .verified)
  exact ⟨seeded_credit,
    (verified_producible_iff (by simp [Flagged,creditModel,creditBalance,initialBalance]) hreport
      hstatus).mpr seeded_credit⟩

/-- A balance and a total that have nothing to begin with but each other. -/
def circularModel : List Descriptor :=
  [.field balance,.field total,
    .mapping ⟨"BalanceOfTotal",["History.total"],"History.balance",[false],"src/history.rs:20"⟩,
    .mapping ⟨"TotalCarried",["History.balance"],"History.total",[true],"src/history.rs:24"⟩]

/-- The circle is verified, although nothing in it can be produced. -/
theorem circular_verified :
    (Flagged circularModel ∧
      (checkDescriptors circularModel .default).toOption.map CheckReport.status = some .verified ∧
      ∀ label, ¬ Producible circularModel label) ∧
    ¬ ∀ (descriptors : List Descriptor) (options : CheckOptions) (report : CheckReport),
      Flagged descriptors → checkDescriptors descriptors options = .ok report →
      report.status = .verified →
      ∀ label, Modeled descriptors label → Producible descriptors label := by
  have hflagged : Flagged circularModel := by simp [Flagged,circularModel]
  have hverified : (checkDescriptors circularModel .default).toOption.map CheckReport.status =
      some .verified := by decide +kernel
  have hnothing : ∀ label, ¬ Producible circularModel label := by
    intro label h
    refine h.least (P := fun _ => False) ?_ ?_
    · rintro label ⟨d,hd,_,hroot⟩
      simp only [circularModel,List.mem_cons,Descriptor.field.injEq,reduceCtorEq,List.not_mem_nil,
        or_false] at hd
      rcases hd with rfl | rfl <;> cases hroot
    · rintro sources target ⟨d,hd,rfl,_⟩ hsources
      obtain ⟨source,hsource⟩ : ∃ source, source ∈ d.sources := by
        simp only [circularModel,List.mem_cons,Descriptor.mapping.injEq,reduceCtorEq,
          List.not_mem_nil,or_false,false_or] at hd
        rcases hd with rfl | rfl <;> exact ⟨_,List.mem_cons_self⟩
      exact hsources source hsource
  refine ⟨⟨hflagged,hverified,hnothing⟩,fun hall => ?_⟩
  obtain ⟨report,hreport,hstatus⟩ := exists_report hverified
  exact hnothing "History.balance"
    (hall circularModel .default report hflagged hreport hstatus _ ⟨balance,by decide,rfl⟩)

end History

end CheckerSoundness
end EventCore
