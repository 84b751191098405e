import EventCore.Grouping
import EventCore.ProvenanceSearch

/-! The descriptors behind the graph that the checker searches, and what a check that succeeds says
about them. -/
namespace EventCore
namespace CheckedModels
open ModelChecker ProvenanceSearch Relation

section Registered

def asField : Descriptor → Option Field
  | .field d => some d
  | _ => none

def asMapping : Descriptor → Option Mapping
  | .mapping d => some d
  | _ => none

def asAssumption : Descriptor → Option Assumption
  | .assumption d => some d
  | _ => none

def having {α : Type} (kind : Descriptor → Option α) (key : α → String)
    (descriptors : List Descriptor) (x : String) : List α :=
  (descriptors.filterMap kind).filter fun a => key a = x

def fieldsAt (descriptors : List Descriptor) (label : String) : List Field :=
  having asField Field.field descriptors label

def mappingsTo (descriptors : List Descriptor) (target : String) : List Mapping :=
  having asMapping Mapping.target descriptors target

def assumptionsOn (descriptors : List Descriptor) (target : String) : List Assumption :=
  having asAssumption Assumption.target descriptors target

section Having

variable {α : Type} {kind : Descriptor → Option α} {key : α → String}
  {descriptors : List Descriptor} {x : String}

theorem mem_having {a : α} :
    a ∈ having kind key descriptors x ↔ (∃ d ∈ descriptors, kind d = some a) ∧ key a = x := by
  simp [having]

theorem having_concat_none {d : Descriptor} (h : kind d = none) :
    having kind key (descriptors ++ [d]) x = having kind key descriptors x := by
  simp [having,h]

theorem having_concat_eq {d : Descriptor} {a : α} (h : kind d = some a) (hkey : key a = x) :
    having kind key (descriptors ++ [d]) x = having kind key descriptors x ++ [a] := by
  simp [having,h,hkey]

theorem having_concat_ne {d : Descriptor} {a : α} (h : kind d = some a) (hkey : key a ≠ x) :
    having kind key (descriptors ++ [d]) x = having kind key descriptors x := by
  simp [having,h,hkey]

end Having

def nonempty {α : Type} : List α → Option (List α)
  | [] => none
  | a :: l => some (a :: l)

theorem nonempty_concat {α : Type} (l : List α) (a : α) : nonempty (l ++ [a]) = some (l ++ [a]) := by
  cases l <;> rfl

theorem getD_nonempty {α : Type} (l : List α) : (nonempty l).getD [] = l := by
  cases l <;> rfl

theorem nonempty_eq_some {α : Type} {l l' : List α} : nonempty l = some l' ↔ l' = l ∧ l ≠ [] := by
  cases l <;> simp [nonempty,eq_comm]

theorem nonempty_ne_nil {α : Type} {l l' : List α} (h : nonempty l = some l') : l' ≠ [] := by
  obtain ⟨rfl,hne⟩ := nonempty_eq_some.mp h
  exact hne

theorem mem_of_nonempty {α : Type} {l l' : List α} (h : nonempty l = some l') {a : α} :
    a ∈ l' ↔ a ∈ l := by
  rw [(nonempty_eq_some.mp h).1]

theorem nonempty_isSome {α : Type} {l : List α} : (nonempty l).isSome ↔ ∃ a, a ∈ l := by
  cases l with
  | nil => simp [nonempty]
  | cons a l => exact iff_of_true rfl ⟨a,List.mem_cons_self⟩

theorem mem_fieldsAt {descriptors : List Descriptor} {label : String} {d : Field} :
    d ∈ fieldsAt descriptors label ↔ .field d ∈ descriptors ∧ d.field = label := by
  have hd : ∀ descriptor, asField descriptor = some d ↔ descriptor = .field d := by
    intro descriptor
    cases descriptor <;> simp [asField]
  simp [fieldsAt,mem_having,hd]

theorem mem_mappingsTo {descriptors : List Descriptor} {target : String} {d : Mapping} :
    d ∈ mappingsTo descriptors target ↔ .mapping d ∈ descriptors ∧ d.target = target := by
  have hd : ∀ descriptor, asMapping descriptor = some d ↔ descriptor = .mapping d := by
    intro descriptor
    cases descriptor <;> simp [asMapping]
  simp [mappingsTo,mem_having,hd]

theorem mem_assumptionsOn {descriptors : List Descriptor} {target : String} {d : Assumption} :
    d ∈ assumptionsOn descriptors target ↔ .assumption d ∈ descriptors ∧ d.target = target := by
  have hd : ∀ descriptor, asAssumption descriptor = some d ↔ descriptor = .assumption d := by
    intro descriptor
    cases descriptor <;> simp [asAssumption]
  simp [assumptionsOn,mem_having,hd]

theorem get?_push {V : Type} (m : HashMap String (List V)) (target : String) (d : V) (x : String) :
    HashMap.get? (push m target d) x =
      if x = target then some ((m.get? x).getD [] ++ [d]) else m.get? x := by
  rw [push,HashMap.get?_insert]
  split_ifs with hx
  · rw [hx]
  · rfl

theorem get?_push_having {α : Type} {kind : Descriptor → Option α} {key : α → String}
    {descriptors : List Descriptor} {d : Descriptor} {a : α} (hkind : kind d = some a)
    {m : HashMap String (List α)} (h : ∀ x, m.get? x = nonempty (having kind key descriptors x))
    (x : String) : HashMap.get? (push m (key a) a) x =
      nonempty (having kind key (descriptors ++ [d]) x) := by
  rw [get?_push,h]
  split_ifs with hx
  · rw [having_concat_eq hkind hx.symm,nonempty_concat,getD_nonempty]
  · rw [having_concat_ne hkind (Ne.symm hx)]

/-- The registry has the last field of a label, and all that has a target in registration order. -/
structure Registers (registry : Registry) (descriptors : List Descriptor) : Prop where
  fields : ∀ x, registry.fields.get? x = (fieldsAt descriptors x).getLast?
  mappings : ∀ x, registry.mappings.get? x = nonempty (mappingsTo descriptors x)
  assumptions : ∀ x, registry.assumptions.get? x = nonempty (assumptionsOn descriptors x)

theorem Registers.register {registry : Registry} {descriptors : List Descriptor}
    (h : Registers registry descriptors) (d : Descriptor) :
    Registers (registry.register d) (descriptors ++ [d]) := by
  obtain ⟨hfields,hmappings,hassumptions⟩ := h
  have hfields' : asField d = none →
      ∀ x, registry.fields.get? x = (fieldsAt (descriptors ++ [d]) x).getLast? := by
    intro hd x
    rw [hfields,fieldsAt,fieldsAt,having_concat_none hd]
  have hmappings' : asMapping d = none →
      ∀ x, registry.mappings.get? x = nonempty (mappingsTo (descriptors ++ [d]) x) := by
    intro hd x
    rw [hmappings,mappingsTo,mappingsTo,having_concat_none hd]
  have hassumptions' : asAssumption d = none →
      ∀ x, registry.assumptions.get? x = nonempty (assumptionsOn (descriptors ++ [d]) x) := by
    intro hd x
    rw [hassumptions,assumptionsOn,assumptionsOn,having_concat_none hd]
  cases d with
  | field d =>
    refine ⟨fun x => ?_,hmappings' rfl,hassumptions' rfl⟩
    have hkind : asField (.field d) = some d := rfl
    change HashMap.get? (AList.insert d.field d registry.fields) x = _
    rw [HashMap.get?_insert,hfields,fieldsAt,fieldsAt]
    split_ifs with hx
    · rw [having_concat_eq hkind hx.symm,List.getLast?_concat]
    · rw [having_concat_ne hkind (Ne.symm hx)]
  | mapping d =>
    have hkind : asMapping (.mapping d) = some d := rfl
    exact ⟨hfields' rfl,get?_push_having hkind hmappings,hassumptions' rfl⟩
  | assumption d =>
    have hkind : asAssumption (.assumption d) = some d := rfl
    exact ⟨hfields' rfl,hmappings' rfl,get?_push_having hkind hassumptions⟩

theorem registers_registryOf (descriptors : List Descriptor) :
    Registers (registryOf descriptors) descriptors := by
  induction descriptors using List.reverseRecOn with
  | nil => exact ⟨fun _ => rfl,fun _ => rfl,fun _ => rfl⟩
  | append_singleton descriptors d ih =>
    rw [registryOf_concat]
    exact ih.register d

theorem registryOf_identifiers (descriptors : List Descriptor) :
    (registryOf descriptors).identifiers = (descriptors.map Descriptor.stableId).toFinset := by
  induction descriptors using List.reverseRecOn with
  | nil => rfl
  | append_singleton descriptors d ih =>
    rw [registryOf_concat]
    have hidentifiers : ((registryOf descriptors).register d).identifiers =
        insert d.stableId (registryOf descriptors).identifiers := by cases d <;> rfl
    rw [hidentifiers,ih]
    ext x
    simp

theorem registryOf_errors_concat (descriptors : List Descriptor) (d : Descriptor) :
    (registryOf (descriptors ++ [d])).errors = (registryOf descriptors).errors ++
      if d.stableId ∈ descriptors.map Descriptor.stableId then [duplicate d] else [] := by
  have herrors : ((registryOf descriptors).register d).errors = (registryOf descriptors).errors ++
      if d.stableId ∈ (registryOf descriptors).identifiers then [duplicate d] else [] := by
    cases d <;> rfl
  rw [registryOf_concat,herrors,registryOf_identifiers]
  simp only [List.mem_toFinset]

theorem registryOf_errors_eq_nil {descriptors : List Descriptor} :
    (registryOf descriptors).errors = [] ↔ (descriptors.map Descriptor.stableId).Nodup := by
  induction descriptors using List.reverseRecOn with
  | nil => simp [registryOf,Registry.empty]
  | append_singleton descriptors d ih =>
    rw [registryOf_errors_concat,List.append_eq_nil_iff,ih,List.map_append,List.nodup_append]
    have hlast : (if d.stableId ∈ descriptors.map Descriptor.stableId then [duplicate d] else []) =
        [] ↔ d.stableId ∉ descriptors.map Descriptor.stableId := by
      split_ifs with hd <;> simp [hd]
    rw [hlast]
    refine and_congr_right fun _ => ?_
    simp

end Registered

section Models

def sorted (descriptors : List Descriptor) : List Descriptor :=
  descriptors.insertionSort fun p q => p.stableId ≤ q.stableId

theorem mem_sorted {descriptors : List Descriptor} {d : Descriptor} :
    d ∈ sorted descriptors ↔ d ∈ descriptors := List.mem_insertionSort _

def graphOf (descriptors : List Descriptor) (options : CheckOptions) : CheckerGraph :=
  (registryOf (sorted descriptors)).graph options

def UniqueIds (descriptors : List Descriptor) : Prop := (descriptors.map Descriptor.stableId).Nodup

def Modeled (descriptors : List Descriptor) (label : String) : Prop :=
  ∃ d, .field d ∈ descriptors ∧ d.field = label

def Root (descriptors : List Descriptor) (label : String) : Prop :=
  ∃ d, .field d ∈ descriptors ∧ d.field = label ∧ d.root = true

structure Targeted (descriptors : List Descriptor) : Prop where
  mapping : ∀ d, .mapping d ∈ descriptors → Modeled descriptors d.target
  assumption : ∀ d, .assumption d ∈ descriptors → Modeled descriptors d.target

variable {descriptors : List Descriptor} {options : CheckOptions}

theorem UniqueIds.field_ext (h : UniqueIds descriptors) {d e : Field} (hd : .field d ∈ descriptors)
    (he : .field e ∈ descriptors) (hlabel : d.field = e.field) : d = e := by
  have hsame : Descriptor.field d = .field e := List.inj_on_of_nodup_map h hd he hlabel
  exact Descriptor.field.inj hsame

theorem mem_fields_iff {label : String} :
    label ∈ (graphOf descriptors options).fields ↔ Modeled descriptors label := by
  have hget := (registers_registryOf (sorted descriptors)).fields label
  change label ∈ (registryOf (sorted descriptors)).fields ↔ _
  rw [← HashMap.get?_isSome_iff,hget,List.getLast?_isSome]
  constructor
  · intro h
    obtain ⟨d,hd⟩ := List.exists_mem_of_ne_nil _ h
    obtain ⟨hmem,hlabel⟩ := mem_fieldsAt.mp hd
    exact ⟨d,mem_sorted.mp hmem,hlabel⟩
  · rintro ⟨d,hd,hlabel⟩
    have hmem : d ∈ fieldsAt (sorted descriptors) label :=
      mem_fieldsAt.mpr ⟨mem_sorted.mpr hd,hlabel⟩
    exact List.ne_nil_of_mem hmem

theorem get?_fields_iff (h : UniqueIds descriptors) {label : String} {d : Field} :
    (graphOf descriptors options).fields.get? label = some d ↔
      .field d ∈ descriptors ∧ d.field = label := by
  have hget := (registers_registryOf (sorted descriptors)).fields label
  change (registryOf (sorted descriptors)).fields.get? label = some d ↔ _
  rw [hget]
  constructor
  · intro hlast
    obtain ⟨hmem,hlabel⟩ := mem_fieldsAt.mp (List.mem_of_getLast? hlast)
    exact ⟨mem_sorted.mp hmem,hlabel⟩
  · rintro ⟨hd,hlabel⟩
    have hmem : d ∈ fieldsAt (sorted descriptors) label :=
      mem_fieldsAt.mpr ⟨mem_sorted.mpr hd,hlabel⟩
    obtain ⟨e,he⟩ := Option.isSome_iff_exists.mp (List.getLast?_isSome.mpr (List.ne_nil_of_mem hmem))
    obtain ⟨hmem',hlabel'⟩ := mem_fieldsAt.mp (List.mem_of_getLast? he)
    rw [he,h.field_ext (mem_sorted.mp hmem') hd (hlabel'.trans hlabel.symm)]

theorem isRoot_iff (h : UniqueIds descriptors) {label : String} :
    (graphOf descriptors options).isRoot label = true ↔ Root descriptors label := by
  rw [CheckerGraph.isRoot,Option.any_eq_true]
  constructor
  · rintro ⟨d,hd,hroot⟩
    obtain ⟨hmem,hlabel⟩ := (get?_fields_iff h).mp hd
    exact ⟨d,hmem,hlabel,hroot⟩
  · rintro ⟨d,hmem,hlabel,hroot⟩
    exact ⟨d,(get?_fields_iff h).mpr ⟨hmem,hlabel⟩,hroot⟩

theorem mem_of_get?_mappings {target : String} {recipes : List Mapping}
    (h : (graphOf descriptors options).mappings.get? target = some recipes) {d : Mapping} :
    d ∈ recipes ↔ .mapping d ∈ descriptors ∧ d.target = target := by
  have hget := (registers_registryOf (sorted descriptors)).mappings target
  rw [mem_of_nonempty (hget.symm.trans h),mem_mappingsTo,mem_sorted]

theorem get?_mappings_isSome {target : String} :
    ((graphOf descriptors options).mappings.get? target).isSome ↔
      ∃ d, .mapping d ∈ descriptors ∧ d.target = target := by
  have hget := (registers_registryOf (sorted descriptors)).mappings target
  change ((registryOf (sorted descriptors)).mappings.get? target).isSome ↔ _
  rw [hget,nonempty_isSome]
  simp only [mem_mappingsTo,mem_sorted]

theorem mem_of_get?_assumptions {target : String} {boundaries : List Assumption}
    (h : (graphOf descriptors options).assumptions.get? target = some boundaries) {d : Assumption} :
    d ∈ boundaries ↔ .assumption d ∈ descriptors ∧ d.target = target := by
  have hget := (registers_registryOf (sorted descriptors)).assumptions target
  rw [mem_of_nonempty (hget.symm.trans h),mem_assumptionsOn,mem_sorted]

theorem get?_assumptions_isSome {target : String} :
    ((graphOf descriptors options).assumptions.get? target).isSome ↔
      ∃ d, .assumption d ∈ descriptors ∧ d.target = target := by
  have hget := (registers_registryOf (sorted descriptors)).assumptions target
  change ((registryOf (sorted descriptors)).assumptions.get? target).isSome ↔ _
  rw [hget,nonempty_isSome]
  simp only [mem_assumptionsOn,mem_sorted]

theorem bounded_graphOf : Bounded (graphOf descriptors options) := by
  intro target boundaries h
  have hsome : ((graphOf descriptors options).assumptions.get? target).isSome := by rw [h]; rfl
  obtain ⟨d,hd⟩ := get?_assumptions_isSome.mp hsome
  exact List.ne_nil_of_mem ((mem_of_get?_assumptions h).mpr hd)

theorem reported_eq_nil {α : Type} (m : HashMap String (List α)) (fields : HashMap String Field)
    (f : String → α → CheckDiagnostic) (hne : ∀ x l, m.get? x = some l → l ≠ []) :
    ((iter m).flatMap fun entry =>
      if entry.1 ∈ fields then [] else entry.2.map (f entry.1)) = [] ↔
      ∀ x, (m.get? x).isSome → x ∈ fields := by
  rw [List.flatMap_eq_nil_iff]
  constructor
  · intro h x hx
    obtain ⟨l,hl⟩ := Option.isSome_iff_exists.mp hx
    by_contra hfield
    have hnone := h (x,l) (mem_iter.mpr hl)
    rw [if_neg hfield,List.map_eq_nil_iff] at hnone
    exact hne x l hl hnone
  · intro h entry hentry
    have hget := mem_iter.mp hentry
    exact if_pos (h entry.1 (by rw [hget]; rfl))

/-- Nothing is reported before the search if stable ids are unique and targets are modeled. -/
theorem evaluation_errors_eq_nil :
    (registryOf (sorted descriptors)).evaluation.errors = [] ↔
      UniqueIds descriptors ∧ Targeted descriptors := by
  have hregisters := registers_registryOf (sorted descriptors)
  have hunique : (registryOf (sorted descriptors)).errors = [] ↔ UniqueIds descriptors := by
    rw [registryOf_errors_eq_nil]
    exact ((List.perm_insertionSort _ descriptors).map _).nodup_iff
  have hmappings := reported_eq_nil (registryOf (sorted descriptors)).mappings
    (registryOf (sorted descriptors)).fields
    (fun target d => unknownTarget target d.name d.location) fun x l h =>
      nonempty_ne_nil ((hregisters.mappings x).symm.trans h)
  have hassumptions := reported_eq_nil (registryOf (sorted descriptors)).assumptions
    (registryOf (sorted descriptors)).fields
    (fun target d => unknownTarget target d.name d.location) fun x l h =>
      nonempty_ne_nil ((hregisters.assumptions x).symm.trans h)
  have hmodeled : ∀ x, x ∈ (registryOf (sorted descriptors)).fields ↔ Modeled descriptors x :=
    fun x => @mem_fields_iff descriptors .default x
  have htargets : ∀ x, ((registryOf (sorted descriptors)).mappings.get? x).isSome ↔
      ∃ d, .mapping d ∈ descriptors ∧ d.target = x :=
    fun x => @get?_mappings_isSome descriptors .default x
  have hbounds : ∀ x, ((registryOf (sorted descriptors)).assumptions.get? x).isSome ↔
      ∃ d, .assumption d ∈ descriptors ∧ d.target = x :=
    fun x => @get?_assumptions_isSome descriptors .default x
  rw [Registry.evaluation,Registry.unknownTargets,List.append_eq_nil_iff,List.append_eq_nil_iff,
    hunique,hmappings,hassumptions]
  simp only [hmodeled,htargets,hbounds]
  refine and_congr_right fun _ => ⟨fun h => ⟨?_,?_⟩,fun h => ⟨?_,?_⟩⟩
  · exact fun d hd => h.1 d.target ⟨d,hd,rfl⟩
  · exact fun d hd => h.2 d.target ⟨d,hd,rfl⟩
  · rintro x ⟨d,hd,rfl⟩
    exact h.mapping d hd
  · rintro x ⟨d,hd,rfl⟩
    exact h.assumption d hd

end Models

section Verdicts

variable {descriptors : List Descriptor} {options : CheckOptions} {report : CheckReport}

theorem sortDiagnostics_eq_nil {diagnostics : List CheckDiagnostic} :
    sortDiagnostics diagnostics = [] ↔ diagnostics = [] := by
  rw [← List.length_eq_zero_iff,sortDiagnostics,List.length_insertionSort,List.length_eq_zero_iff]

theorem verdict_eq_ok {registry : Registry} {evaluation : CheckerEvaluation} :
    verdict registry evaluation = .ok report ↔ evaluation.errors = [] ∧
      report = ⟨if evaluation.usedAssumption then .assumed else .verified,
        sortDiagnostics registry.warnings⟩ := by
  rw [← sortDiagnostics_eq_nil,verdict]
  split_ifs with h <;> simp [h,eq_comm]

theorem verdict_eq_error {registry : Registry} {evaluation : CheckerEvaluation}
    (h : evaluation.errors ≠ []) :
    verdict registry evaluation = .error ⟨sortDiagnostics evaluation.errors⟩ :=
  if_neg (mt sortDiagnostics_eq_nil.mp h)

theorem exists_report {status : CheckStatus}
    (h : (checkDescriptors descriptors options).toOption.map CheckReport.status = some status) :
    ∃ report, checkDescriptors descriptors options = .ok report ∧ report.status = status := by
  cases hresult : checkDescriptors descriptors options with
  | error e => simp [hresult,Except.toOption] at h
  | ok report => exact ⟨report,rfl,by simpa [hresult,Except.toOption] using h⟩

theorem exists_evaluation (hne : descriptors ≠ []) (options : CheckOptions) :
    ∃ evaluation, checkFields (graphOf descriptors options) (descriptors.length+1)
        (iter (graphOf descriptors options).fields)
        (registryOf (sorted descriptors)).evaluation = some evaluation ∧
      checkDescriptors descriptors options =
        verdict (registryOf (sorted descriptors)) evaluation := by
  have h := checkReferences_eq options (Nat.lt_succ_self descriptors.length)
  rw [checkReferences] at h
  split at h
  · rename_i hsorted
    have hlen := congrArg List.length hsorted
    rw [List.length_insertionSort] at hlen
    exact absurd (List.length_eq_zero_iff.mp hlen) hne
  · rename_i first others hsorted
    obtain ⟨evaluation,hfields,he⟩ := Option.map_eq_some_iff.mp h
    have hregistry : registryOf (sorted descriptors) = registryOf (first :: others) := by
      rw [← hsorted]
      rfl
    rw [graphOf,hregistry]
    exact ⟨evaluation,hfields,he.symm⟩

theorem listed_iter (graph : CheckerGraph) : Listed graph (iter graph.fields) :=
  fun _ hp => mem_iter.mp hp

theorem checkDescriptors_nil (options : CheckOptions) :
    checkDescriptors [] options = .error ⟨[noDescriptors]⟩ := rfl

structure Reports (descriptors : List Descriptor) (options : CheckOptions) (report : CheckReport) :
    Prop where
  nonempty : descriptors ≠ []
  unique : UniqueIds descriptors
  targeted : Targeted descriptors
  grounded : ∀ label, Modeled descriptors label → Grounded (graphOf descriptors options) label
  assumed : report.status = .assumed ↔ ∃ label, Accepted (graphOf descriptors options) label

theorem reports_of_ok (h : checkDescriptors descriptors options = .ok report) :
    Reports descriptors options report := by
  have hne : descriptors ≠ [] := by
    rintro rfl
    rw [checkDescriptors_nil] at h
    cases h
  obtain ⟨evaluation,hfields,he⟩ := exists_evaluation hne options
  rw [h,eq_comm,verdict_eq_ok] at he
  obtain ⟨hsilent,rfl⟩ := he
  have hstart := List.prefix_nil.mp (hsilent ▸ (checkFields_errors hfields).1)
  obtain ⟨hunique,htargeted⟩ := evaluation_errors_eq_nil.mp hstart
  have hsettled : Settled (graphOf descriptors options)
      (registryOf (sorted descriptors)).evaluation := by
    refine ⟨fun _ _ h => ?_,fun _ h => ?_,fun _ h => ?_⟩
    · simp [Registry.evaluation] at h
    · exact absurd h (AList.notMem_empty _)
    · exact absurd h (AList.notMem_empty _)
  obtain ⟨hafter,hmemo⟩ :=
    checkFields_settled bounded_graphOf (listed_iter _) hfields hsilent hsettled
  have hdecided : ∀ label ∈ (graphOf descriptors options).fields, label ∈ evaluation.memo := by
    intro label hlabel
    obtain ⟨d,hd⟩ := HashMap.exists_of_mem hlabel
    exact hmemo (label,d) (mem_iter.mpr hd)
  refine ⟨hne,hunique,htargeted,fun label hlabel => ?_,?_⟩
  · exact hafter.grounded label (hdecided label (mem_fields_iff.mpr hlabel))
  · have hstatus : (if evaluation.usedAssumption then CheckStatus.assumed else .verified) = .assumed ↔
        evaluation.usedAssumption = true := by
      split_ifs with hused <;> simp [hused]
    rw [hstatus]
    constructor
    · intro hused
      rcases checkFields_used (listed_iter _) hfields hused with hstart | haccepted
      · cases hstart
      · exact haccepted
    · rintro ⟨label,hlabel,hroot,boundaries,hboundaries,_⟩
      exact hafter.used label (hdecided label hlabel) hroot (HashMap.mem_of_get? hboundaries)

theorem ok_of_sustained (hne : descriptors ≠ []) (hunique : UniqueIds descriptors)
    (htargeted : Targeted descriptors) (hgraph : Sustained (graphOf descriptors options)) :
    ∃ report, checkDescriptors descriptors options = .ok report := by
  obtain ⟨evaluation,hfields,he⟩ := exists_evaluation hne options
  have hsilent := checkFields_silent hgraph (listed_iter _) hfields fun label result h => by
    simp [Registry.evaluation] at h
  rw [evaluation_errors_eq_nil.mpr ⟨hunique,htargeted⟩] at hsilent
  exact ⟨_,he.trans (verdict_eq_ok.mpr ⟨hsilent,rfl⟩)⟩

theorem first_strict (h : checkDescriptors descriptors options = .ok report) {entry : String}
    {d : Field} {others : List (String × Field)}
    (hfirst : iter (graphOf descriptors options).fields = (entry,d) :: others) {label : String}
    (hreach : ReflTransGen (Link (graphOf descriptors options)) entry label) :
    ¬ StrictLink (graphOf descriptors options) label entry := by
  have hreports := reports_of_ok h
  obtain ⟨evaluation,hfields,he⟩ := exists_evaluation hreports.nonempty options
  rw [h,eq_comm,verdict_eq_ok] at he
  rw [hfirst,checkFields] at hfields
  have hroot : (graphOf descriptors options).isRoot entry = d.root :=
    (listed_iter (graphOf descriptors options)).isRoot (p := (entry,d)) (by rw [hfirst]; simp)
  split_ifs at hfields with hd
  · -- a root has no inputs, so nothing is reached from it
    intro hstrict
    rcases ReflTransGen.cases_head_iff.mp hreach with rfl | ⟨next,hnext,_⟩
    · exact not_link_of_root (hroot.trans hd) _ hstrict.link
    · exact not_link_of_root (hroot.trans hd) _ hnext
  · obtain ⟨⟨result,between⟩,hsearch,hrest⟩ := Option.bind_eq_some_iff.mp hfields
    have hsilent := List.prefix_nil.mp (he.1 ▸ (checkFields_errors hrest).1)
    exact entry_strict rfl rfl hsearch hsilent hreach

end Verdicts

section Provenance

variable {descriptors : List Descriptor} {options : CheckOptions}

def NonRoot (descriptors : List Descriptor) (label : String) : Prop :=
  ∃ d, .field d ∈ descriptors ∧ d.field = label ∧ d.root = false

def Bound (descriptors : List Descriptor) (label : String) : Prop :=
  ∃ d, .assumption d ∈ descriptors ∧ d.target = label

def AcceptedAt (descriptors : List Descriptor) (options : CheckOptions) (label : String) : Prop :=
  ∃ d, .assumption d ∈ descriptors ∧ d.target = label ∧
    (options.allowAllAssumptions = true ∨ d.name ∈ options.allowedAssumptions)

/-- Every source is said to be temporal or not. -/
def Flagged (descriptors : List Descriptor) : Prop :=
  ∀ d, .mapping d ∈ descriptors → d.temporalSources.length = d.sources.length

/-- Every source is paired with its flag if there are as many of both. -/
theorem mem_sources_iff {d : Mapping} (h : d.temporalSources.length = d.sources.length)
    {source : String} : source ∈ d.sources ↔ ∃ input ∈ d.inputs, input.source = source := by
  have hmap : d.inputs.map Input.source = d.sources := by
    rw [Mapping.inputs,List.map_map]
    exact List.map_fst_zip h.ge
  rw [← hmap,List.mem_map]

theorem temporal_of_mem_inputs {d : Mapping} {input : Input} (h : input ∈ d.inputs) :
    input.temporal ∈ d.temporalSources := by
  obtain ⟨p,hp,rfl⟩ := List.mem_map.mp h
  exact (List.of_mem_zip hp).2

theorem accepts_graphOf {d : Assumption} : (graphOf descriptors options).accepts d = true ↔
    options.allowAllAssumptions = true ∨ d.name ∈ options.allowedAssumptions := by
  rw [CheckerGraph.accepts,Bool.or_eq_true,decide_eq_true_eq]
  rfl

theorem accepts_iff {label : String} :
    (∃ boundaries, (graphOf descriptors options).assumptions.get? label = some boundaries ∧
      boundaries.any (graphOf descriptors options).accepts = true) ↔
      AcceptedAt descriptors options label := by
  constructor
  · rintro ⟨boundaries,hboundaries,haccepts⟩
    obtain ⟨d,hd,haccepts⟩ := List.any_eq_true.mp haccepts
    obtain ⟨hmem,htarget⟩ := (mem_of_get?_assumptions hboundaries).mp hd
    exact ⟨d,hmem,htarget,accepts_graphOf.mp haccepts⟩
  · rintro ⟨d,hmem,htarget,haccepts⟩
    have hbound : ((graphOf descriptors options).assumptions.get? label).isSome :=
      get?_assumptions_isSome.mpr ⟨d,hmem,htarget⟩
    obtain ⟨boundaries,hboundaries⟩ := Option.isSome_iff_exists.mp hbound
    refine ⟨boundaries,hboundaries,List.any_eq_true.mpr ⟨d,?_,accepts_graphOf.mpr haccepts⟩⟩
    exact (mem_of_get?_assumptions hboundaries).mpr ⟨hmem,htarget⟩

theorem get?_assumptions_eq_none {label : String} :
    (graphOf descriptors options).assumptions.get? label = none ↔ ¬ Bound descriptors label := by
  rw [← Option.not_isSome_iff_eq_none,get?_assumptions_isSome]
  rfl

theorem isRoot_eq_false (h : UniqueIds descriptors) {label : String} :
    (graphOf descriptors options).isRoot label = false ↔ ¬ Root descriptors label := by
  rw [← Bool.not_eq_true,isRoot_iff h]

theorem hasNonTemporalSeed_iff (h : UniqueIds descriptors) {label : String} :
    (graphOf descriptors options).hasNonTemporalSeed label = true ↔ Root descriptors label ∨
      ∃ d, .mapping d ∈ descriptors ∧ d.target = label ∧
        ∀ temporal ∈ d.temporalSources, temporal = false := by
  rw [CheckerGraph.hasNonTemporalSeed,Bool.or_eq_true,isRoot_iff h,Option.any_eq_true]
  refine or_congr_right ⟨?_,?_⟩
  · rintro ⟨recipes,hrecipes,hany⟩
    obtain ⟨d,hd,hall⟩ := List.any_eq_true.mp hany
    obtain ⟨hmem,htarget⟩ := (mem_of_get?_mappings hrecipes).mp hd
    exact ⟨d,hmem,htarget,by simpa using hall⟩
  · rintro ⟨d,hmem,htarget,hall⟩
    have hmapped : ((graphOf descriptors options).mappings.get? label).isSome :=
      get?_mappings_isSome.mpr ⟨d,hmem,htarget⟩
    obtain ⟨recipes,hrecipes⟩ := Option.isSome_iff_exists.mp hmapped
    refine ⟨recipes,hrecipes,List.any_eq_true.mpr ⟨d,?_,by simpa using hall⟩⟩
    exact (mem_of_get?_mappings hrecipes).mpr ⟨hmem,htarget⟩

theorem nonRoot_iff (h : UniqueIds descriptors) {label : String} :
    NonRoot descriptors label ↔ Modeled descriptors label ∧ ¬ Root descriptors label := by
  constructor
  · rintro ⟨d,hd,hlabel,hroot⟩
    refine ⟨⟨d,hd,hlabel⟩,?_⟩
    rintro ⟨e,he,helabel,heroot⟩
    rw [h.field_ext hd he (hlabel.trans helabel.symm),heroot] at hroot
    cases hroot
  · rintro ⟨⟨d,hd,hlabel⟩,hroot⟩
    exact ⟨d,hd,hlabel,Bool.eq_false_iff.mpr fun h => hroot ⟨d,hd,hlabel,h⟩⟩

theorem supplies_iff (hunique : UniqueIds descriptors) (htargeted : Targeted descriptors)
    {input : Input} {label : String} :
    Supplies (graphOf descriptors options) input label ↔
      NonRoot descriptors label ∧ ¬ Bound descriptors label ∧
        ∃ d, .mapping d ∈ descriptors ∧ d.target = label ∧ input ∈ d.inputs := by
  rw [nonRoot_iff hunique]
  constructor
  · rintro ⟨recipes,⟨hroot,hboundary,hrecipes⟩,hinput⟩
    obtain ⟨d,hd,hinput⟩ := List.mem_flatMap.mp hinput
    obtain ⟨hmem,htarget⟩ := (mem_of_get?_mappings hrecipes).mp hd
    exact ⟨⟨htarget ▸ htargeted.mapping d hmem,(isRoot_eq_false hunique).mp hroot⟩,
      get?_assumptions_eq_none.mp hboundary,d,hmem,htarget,hinput⟩
  · rintro ⟨⟨_,hroot⟩,hboundary,d,hmem,htarget,hinput⟩
    have hmapped : ((graphOf descriptors options).mappings.get? label).isSome :=
      get?_mappings_isSome.mpr ⟨d,hmem,htarget⟩
    obtain ⟨recipes,hrecipes⟩ := Option.isSome_iff_exists.mp hmapped
    exact ⟨recipes,⟨(isRoot_eq_false hunique).mpr hroot,get?_assumptions_eq_none.mpr hboundary,
      hrecipes⟩,List.mem_flatMap.mpr ⟨d,(mem_of_get?_mappings hrecipes).mpr ⟨hmem,htarget⟩,hinput⟩⟩

/-- Nothing is missing at the field, as the descriptors have it. -/
structure Provided (descriptors : List Descriptor) (options : CheckOptions) (label : String) :
    Prop where
  accepted : Bound descriptors label → AcceptedAt descriptors options label
  produced : ¬ Bound descriptors label → ∃ d, .mapping d ∈ descriptors ∧ d.target = label
  sources : ¬ Bound descriptors label → ∀ d, .mapping d ∈ descriptors → d.target = label →
    ∀ input ∈ d.inputs, Modeled descriptors input.source

theorem wired_iff (hunique : UniqueIds descriptors) {label : String} :
    Wired (graphOf descriptors options) label ↔
      Root descriptors label ∨ Provided descriptors options label := by
  rw [Wired,isRoot_iff hunique,accepts_iff,get?_assumptions_eq_none]
  refine or_congr_right ⟨?_,fun h => ?_⟩
  · rintro (haccepted | ⟨hbound,recipes,hrecipes,hsources⟩)
    · have hbound : Bound descriptors label := by
        obtain ⟨d,hd,htarget,_⟩ := haccepted
        exact ⟨d,hd,htarget⟩
      exact ⟨fun _ => haccepted,fun h => absurd hbound h,fun h => absurd hbound h⟩
    · refine ⟨fun h => absurd h hbound,fun _ => ?_,fun _ d hd htarget input hinput => ?_⟩
      · exact get?_mappings_isSome.mp (Option.isSome_iff_exists.mpr ⟨recipes,hrecipes⟩)
      · have hd' : d ∈ recipes := (mem_of_get?_mappings hrecipes).mpr ⟨hd,htarget⟩
        exact mem_fields_iff.mp (hsources input (List.mem_flatMap.mpr ⟨d,hd',hinput⟩))
  · by_cases hbound : Bound descriptors label
    · exact .inl (h.accepted hbound)
    · obtain ⟨recipes,hrecipes⟩ := Option.isSome_iff_exists.mp
        (get?_mappings_isSome.mpr (h.produced hbound))
      refine .inr ⟨hbound,recipes,hrecipes,fun input hinput => ?_⟩
      obtain ⟨d,hd,hinput⟩ := List.mem_flatMap.mp hinput
      obtain ⟨hmem,htarget⟩ := (mem_of_get?_mappings hrecipes).mp hd
      exact mem_fields_iff.mpr (h.sources hbound d hmem htarget input hinput)

structure AllProvided (descriptors : List Descriptor) (options : CheckOptions) : Prop where
  nonempty : descriptors ≠ []
  unique : UniqueIds descriptors
  targeted : Targeted descriptors
  provided : ∀ label, NonRoot descriptors label → Provided descriptors options label

theorem AllProvided.wired (h : AllProvided descriptors options) {label : String}
    (hlabel : label ∈ (graphOf descriptors options).fields) :
    Wired (graphOf descriptors options) label := by
  rw [wired_iff h.unique]
  by_cases hroot : Root descriptors label
  · exact .inl hroot
  · exact .inr (h.provided label ((nonRoot_iff h.unique).mpr ⟨mem_fields_iff.mp hlabel,hroot⟩))

theorem Reports.allProvided {report : CheckReport} (h : Reports descriptors options report) :
    AllProvided descriptors options := by
  refine ⟨h.nonempty,h.unique,h.targeted,fun label hlabel => ?_⟩
  obtain ⟨hmodeled,hroot⟩ := (nonRoot_iff h.unique).mp hlabel
  cases h.grounded label hmodeled with
  | intro hwired _ => exact ((wired_iff h.unique).mp hwired).resolve_left hroot

theorem accepted_iff (hunique : UniqueIds descriptors) {label : String} :
    Accepted (graphOf descriptors options) label ↔
      NonRoot descriptors label ∧ AcceptedAt descriptors options label := by
  rw [Accepted,accepts_iff,isRoot_eq_false hunique,mem_fields_iff,nonRoot_iff hunique,and_assoc]

end Provenance

end CheckedModels
end EventCore
