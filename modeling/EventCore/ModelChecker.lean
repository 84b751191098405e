import EventCore.Types
import Mathlib.Data.Finset.Card
import Mathlib.Data.List.Sort
import Mathlib.Data.String.Basic

/-! The checker of modeled fields: a memoized depth-first search from every field, in the order of
their labels, through the mappings that produce it. -/
namespace EventCore
namespace ModelChecker

structure Field where
  role : String
  field : String
  root : Bool
  location : String
  deriving DecidableEq

/-- A mapping produces its target from its sources, some of them from the state before. -/
structure Mapping where
  name : String
  sources : List String
  target : String
  temporalSources : List Bool
  location : String
  deriving DecidableEq

structure Assumption where
  name : String
  target : String
  location : String
  deriving DecidableEq

inductive Descriptor
  | field (d : Field)
  | mapping (d : Mapping)
  | assumption (d : Assumption)
  deriving DecidableEq

namespace Descriptor

def stableId : Descriptor → String
  | field d => d.field
  | mapping d => d.name
  | assumption d => d.name

def location : Descriptor → String
  | field d => d.location
  | mapping d => d.location
  | assumption d => d.location

end Descriptor

structure CheckOptions where
  allowAllAssumptions : Bool
  allowedAssumptions : Finset String

def CheckOptions.default : CheckOptions := ⟨false,∅⟩

structure CheckDiagnostic where
  code : String
  subject : String
  message : String
  help : String
  trace : List String
  location : Option String
  deriving DecidableEq

inductive CheckStatus
  | verified | assumed
  deriving DecidableEq

structure CheckReport where
  status : CheckStatus
  warnings : List CheckDiagnostic
  deriving DecidableEq

/-- The status of a failed check is always that it is incomplete. -/
structure CheckError where
  diagnostics : List CheckDiagnostic
  deriving DecidableEq

def diagnostic (code subject message help : String) : CheckDiagnostic :=
  ⟨code,subject,message,help,[],none⟩

def diagnosticAt (code subject message help location : String) : CheckDiagnostic :=
  ⟨code,subject,message,help,[],some location⟩

def diagnosticWithTrace (code subject message help : String) (trace : List String) :
    CheckDiagnostic :=
  ⟨code,subject,message,help,trace,none⟩

def diagnosticWithTraceAt (code subject message help : String) (trace : List String)
    (location : String) : CheckDiagnostic :=
  ⟨code,subject,message,help,trace,some location⟩

def sortDiagnostics (diagnostics : List CheckDiagnostic) : List CheckDiagnostic :=
  diagnostics.insertionSort fun left right =>
    left.code < right.code ∨ left.code = right.code ∧ left.subject ≤ right.subject

def iter {V : Type} (m : HashMap String V) : List (String × V) :=
  (m.entries.map fun e => (e.1,e.2)).insertionSort fun p q => p.1 ≤ q.1

section Registration

/-- What is kept of the descriptors, and the errors of their registration. -/
structure Registry where
  errors : List CheckDiagnostic
  fields : HashMap String Field
  mappings : HashMap String (List Mapping)
  assumptions : HashMap String (List Assumption)
  identifiers : Finset String

def Registry.empty : Registry := ⟨[],∅,∅,∅,∅⟩

def duplicate (descriptor : Descriptor) : CheckDiagnostic :=
  diagnosticAt "ECM002" descriptor.stableId "duplicate modeled descriptor registration"
    "give the component or mapping a unique name" descriptor.location

/-- `entry(target).or_default().push(descriptor)`. -/
def push {V : Type} (m : HashMap String (List V)) (target : String) (d : V) :
    HashMap String (List V) :=
  m.insert target ((m.get? target).getD [] ++ [d])

/-- One turn of the loop over the descriptors; a later field of the same label replaces it. -/
def Registry.register (registry : Registry) (descriptor : Descriptor) : Registry :=
  let registry := { registry with
    errors := registry.errors ++
      if descriptor.stableId ∈ registry.identifiers then [duplicate descriptor] else []
    identifiers := insert descriptor.stableId registry.identifiers }
  match descriptor with
  | .field d => { registry with fields := registry.fields.insert d.field d }
  | .mapping d => { registry with mappings := push registry.mappings d.target d }
  | .assumption d => { registry with assumptions := push registry.assumptions d.target d }

def registryOf (descriptors : List Descriptor) : Registry :=
  descriptors.foldl Registry.register .empty

def unknownTarget (target : String) (stableId location : String) : CheckDiagnostic :=
  diagnosticAt "ECM005" stableId
    ("registration target `" ++ target ++ "` is not a modeled field")
    "derive a modeled component for the target owner or correct the target path" location

def Registry.unknownTargets (registry : Registry) : List CheckDiagnostic :=
  ((iter registry.mappings).flatMap fun entry =>
    if entry.1 ∈ registry.fields then []
    else entry.2.map fun d => unknownTarget entry.1 d.name d.location) ++
  (iter registry.assumptions).flatMap fun entry =>
    if entry.1 ∈ registry.fields then []
    else entry.2.map fun d => unknownTarget entry.1 d.name d.location

def Registry.consumedFields (registry : Registry) : List String :=
  (iter registry.mappings).flatMap fun entry => entry.2.flatMap Mapping.sources

def fieldWarnings (consumedFields : List String) (field : String) (d : Field) :
    List CheckDiagnostic :=
  (if d.root = true ∧ field ∉ consumedFields then
    [diagnostic "ECM102" field "modeled origin is not consumed by any mapping"
      "remove the unused field or add an executable mapping that consumes it"]
  else []) ++
  if d.role = "event" ∧ field ∉ consumedFields then
    [diagnostic "ECM103" field "modeled event field is not consumed downstream"
      "add a projection/view mapping or mark the event boundary intentionally opaque"]
  else []

def Registry.warnings (registry : Registry) : List CheckDiagnostic :=
  ((iter registry.fields).flatMap fun entry =>
    fieldWarnings registry.consumedFields entry.1 entry.2) ++
  if (iter registry.fields).any fun entry => entry.2.role = "output" then []
  else [diagnostic "ECM101" "model" "the linked model has no modeled output"
    "add a ModelOutput/ModelView boundary when this model renders a view"]

end Registration

section Search

structure CheckerGraph where
  fields : HashMap String Field
  mappings : HashMap String (List Mapping)
  assumptions : HashMap String (List Assumption)
  options : CheckOptions

structure CheckerEvaluation where
  usedAssumption : Bool
  memo : HashMap String Bool
  visiting : Finset String
  errors : List CheckDiagnostic
  path : List String

namespace CheckerEvaluation

def memoize (evaluation : CheckerEvaluation) (field : String) (result : Bool) :
    CheckerEvaluation :=
  { evaluation with memo := evaluation.memo.insert field result }

def report (evaluation : CheckerEvaluation) (errors : List CheckDiagnostic) : CheckerEvaluation :=
  { evaluation with errors := evaluation.errors ++ errors }

def enter (evaluation : CheckerEvaluation) (field : String) : CheckerEvaluation :=
  { evaluation with
    visiting := insert field evaluation.visiting
    path := evaluation.path ++ [field] }

def leave (evaluation : CheckerEvaluation) (field : String) (result : Bool) :
    CheckerEvaluation :=
  { evaluation with
    visiting := evaluation.visiting.erase field
    memo := evaluation.memo.insert field result
    path := evaluation.path.dropLast }

end CheckerEvaluation

namespace CheckerGraph

variable (graph : CheckerGraph)

def isRoot (field : String) : Bool := (graph.fields.get? field).any Field.root

def accepts (boundary : Assumption) : Bool :=
  graph.options.allowAllAssumptions || boundary.name ∈ graph.options.allowedAssumptions

def hasNonTemporalSeed (field : String) : Bool :=
  graph.isRoot field ||
    (graph.mappings.get? field).any fun recipes =>
      recipes.any fun recipe => recipe.temporalSources.all fun temporal => !temporal

end CheckerGraph

/-- One source of a recipe, and whether it is temporal. -/
structure Input where
  recipe : Mapping
  source : String
  temporal : Bool

def Mapping.inputs (recipe : Mapping) : List Input :=
  (recipe.sources.zip recipe.temporalSources).map fun p => ⟨recipe,p.1,p.2⟩

def notEnabled (field : String) (boundary : Assumption) : CheckDiagnostic :=
  diagnostic "ECM008" boundary.name ("assumption boundary for `" ++ field ++ "` is not enabled")
    ("use `CheckOptions::default().allow_assumption(\"" ++ boundary.name ++
      "\")` or replace it with an executable mapping")

def revisited (field : String) (path : List String) : CheckDiagnostic :=
  diagnosticWithTrace "ECM006" field "ordinary provenance cycle has no explicit temporal seed"
    "use `previous(...)` with a modeled default/absence seed" (path ++ [field])

def noProducer (field : String) (path : List String) (location : String) : CheckDiagnostic :=
  diagnosticWithTraceAt "ECM003" field "non-root modeled field has no executable producer"
    "add a mapping, default, absence, or explicit origin" path location

def unknownSource (input : Input) (path : List String) : CheckDiagnostic :=
  diagnosticWithTraceAt "ECM004" input.recipe.name
    ("mapping source `" ++ input.source ++ "` is not a modeled field")
    "derive a modeled component for the source owner or correct the mapping path"
    (path ++ [input.source]) input.recipe.location

def ordinaryCycle (input : Input) : CheckDiagnostic :=
  diagnostic "ECM006" input.recipe.name
    ("mapping closes an ordinary cycle through `" ++ input.source ++ "`")
    "mark the carried state input as `previous(...)` and provide a default seed"

def noSeed (input : Input) : CheckDiagnostic :=
  diagnostic "ECM007" input.recipe.name
    ("temporal source `" ++ input.source ++ "` has no non-temporal seed")
    "add a default, absence, origin, or non-temporal mapping for the carried field"

variable (graph : CheckerGraph)

/-- The body of the two loops over the recipes and their sources. -/
def checkInput (search : String → CheckerEvaluation → Option (Bool × CheckerEvaluation))
    (state : Bool × CheckerEvaluation) (input : Input) : Option (Bool × CheckerEvaluation) :=
  let (complete,evaluation) := state
  if input.source ∉ graph.fields then
    some (false,evaluation.report [unknownSource input evaluation.path])
  else if input.source ∈ evaluation.visiting then
    if input.temporal = false then some (false,evaluation.report [ordinaryCycle input])
    else if graph.hasNonTemporalSeed input.source then some (complete,evaluation)
    else some (false,evaluation.report [noSeed input])
  else (search input.source evaluation).map fun r => (complete && r.1,r.2)

/-- The search from a field, a field deeper for each unit of fuel. -/
def isComplete : ℕ → String → CheckerEvaluation → Option (Bool × CheckerEvaluation)
  | 0,_,_ => none
  | fuel+1,field,evaluation =>
    match evaluation.memo.get? field with
    | some result => some (result,evaluation)
    | none =>
      if graph.isRoot field then some (true,evaluation.memoize field true)
      else if field ∈ evaluation.visiting then
        some (false,(evaluation.report [revisited field evaluation.path]).memoize field false)
      else
        let evaluation := evaluation.enter field
        match graph.assumptions.get? field with
        | some boundaries =>
          if boundaries.any graph.accepts then
            some (true,{ evaluation with usedAssumption := true }.leave field true)
          else some (false,(evaluation.report (boundaries.map (notEnabled field))).leave field false)
        | none =>
          match graph.mappings.get? field with
          | none =>
            let location := ((graph.fields.get? field).map Field.location).getD "<unknown>"
            some (false,(evaluation.report [noProducer field evaluation.path location]).leave field
              false)
          | some recipes =>
            ((recipes.flatMap Mapping.inputs).foldlM (checkInput graph (isComplete fuel))
              (true,evaluation)).map fun r => (r.1,r.2.leave field r.1)

/-- The loop over all fields; nothing is being visited when it comes to one. -/
def checkFields (fuel : ℕ) :
    List (String × Field) → CheckerEvaluation → Option CheckerEvaluation
  | [],evaluation => some evaluation
  | (field,d) :: fields,evaluation =>
    if d.root then checkFields fuel fields (evaluation.memoize field true)
    else (isComplete graph fuel field { evaluation with visiting := ∅ }).bind fun r =>
      checkFields fuel fields r.2

end Search

def Registry.graph (registry : Registry) (options : CheckOptions) : CheckerGraph :=
  ⟨registry.fields,registry.mappings,registry.assumptions,options⟩

def Registry.evaluation (registry : Registry) : CheckerEvaluation :=
  ⟨false,∅,∅,registry.errors ++ registry.unknownTargets,[]⟩

def verdict (registry : Registry) (evaluation : CheckerEvaluation) :
    Except CheckError CheckReport :=
  if sortDiagnostics evaluation.errors = [] then
    .ok ⟨if evaluation.usedAssumption then .assumed else .verified,
      sortDiagnostics registry.warnings⟩
  else .error ⟨sortDiagnostics evaluation.errors⟩

def noDescriptors : CheckDiagnostic :=
  diagnostic "ECM001" "registry" "no modeled descriptors were supplied for checking"
    ("enable `experimental-model-check` and link the application model, or provide benchmark " ++
      "descriptors explicitly")

def checkReferences (fuel : ℕ) (descriptors : List Descriptor) (options : CheckOptions) :
    Option (Except CheckError CheckReport) :=
  match descriptors.insertionSort fun p q => p.stableId ≤ q.stableId with
  | [] => some (.error ⟨[noDescriptors]⟩)
  | first :: others =>
    let registry := registryOf (first :: others)
    (checkFields (registry.graph options) fuel (iter registry.fields) registry.evaluation).map
      (verdict registry)

section Outcomes

variable {graph}

/-- The same fields are being visited, nothing that was decided is forgotten, and no error is taken
back. -/
structure Kept (before after : CheckerEvaluation) : Prop where
  visiting : after.visiting = before.visiting
  errors : before.errors <+: after.errors
  memo : ∀ field ∈ before.memo, field ∈ after.memo

structure Decides (field : String) (before after : CheckerEvaluation) : Prop
    extends Kept before after where
  decided : field ∈ after.memo

/-- A property of searches: of the field, what was known before, the result and what is known
after. -/
abbrev Searches := String → CheckerEvaluation → Bool → CheckerEvaluation → Prop

/-- The loop over the inputs, where `P` holds of the searches it starts. -/
inductive Loop (graph : CheckerGraph) (P : Searches) :
    List Input → Bool → CheckerEvaluation → Bool → CheckerEvaluation → Prop
  | done {complete : Bool} {evaluation : CheckerEvaluation} :
      Loop graph P [] complete evaluation complete evaluation
  | unknown {input : Input} {inputs : List Input} {complete result : Bool}
      {evaluation after : CheckerEvaluation} (hsource : input.source ∉ graph.fields)
      (rest : Loop graph P inputs false
        (evaluation.report [unknownSource input evaluation.path]) result after) :
      Loop graph P (input :: inputs) complete evaluation result after
  | ordinary {input : Input} {inputs : List Input} {complete result : Bool}
      {evaluation after : CheckerEvaluation} (hsource : input.source ∈ graph.fields)
      (hvisiting : input.source ∈ evaluation.visiting) (htemporal : input.temporal = false)
      (rest : Loop graph P inputs false (evaluation.report [ordinaryCycle input]) result after) :
      Loop graph P (input :: inputs) complete evaluation result after
  | seeded {input : Input} {inputs : List Input} {complete result : Bool}
      {evaluation after : CheckerEvaluation} (hsource : input.source ∈ graph.fields)
      (hvisiting : input.source ∈ evaluation.visiting) (htemporal : input.temporal = true)
      (hseed : graph.hasNonTemporalSeed input.source = true)
      (rest : Loop graph P inputs complete evaluation result after) :
      Loop graph P (input :: inputs) complete evaluation result after
  | unseeded {input : Input} {inputs : List Input} {complete result : Bool}
      {evaluation after : CheckerEvaluation} (hsource : input.source ∈ graph.fields)
      (hvisiting : input.source ∈ evaluation.visiting) (htemporal : input.temporal = true)
      (hseed : graph.hasNonTemporalSeed input.source = false)
      (rest : Loop graph P inputs false (evaluation.report [noSeed input]) result after) :
      Loop graph P (input :: inputs) complete evaluation result after
  | searched {input : Input} {inputs : List Input} {complete found result : Bool}
      {evaluation between after : CheckerEvaluation} (hsource : input.source ∈ graph.fields)
      (hvisiting : input.source ∉ evaluation.visiting)
      (hsearch : P input.source evaluation found between)
      (rest : Loop graph P inputs (complete && found) between result after) :
      Loop graph P (input :: inputs) complete evaluation result after

/-- What a search can come to, where `P` holds of the searches it starts. -/
inductive Outcome (graph : CheckerGraph) (P : Searches) : Searches
  | known {field : String} {evaluation : CheckerEvaluation} {result : Bool}
      (hmemo : evaluation.memo.get? field = some result) :
      Outcome graph P field evaluation result evaluation
  | root {field : String} {evaluation : CheckerEvaluation}
      (hmemo : evaluation.memo.get? field = none) (hroot : graph.isRoot field = true) :
      Outcome graph P field evaluation true (evaluation.memoize field true)
  | revisited {field : String} {evaluation : CheckerEvaluation}
      (hmemo : evaluation.memo.get? field = none) (hroot : graph.isRoot field = false)
      (hvisiting : field ∈ evaluation.visiting) :
      Outcome graph P field evaluation false
        ((evaluation.report [revisited field evaluation.path]).memoize field false)
  | assumed {field : String} {evaluation : CheckerEvaluation} {boundaries : List Assumption}
      (hmemo : evaluation.memo.get? field = none) (hroot : graph.isRoot field = false)
      (hvisiting : field ∉ evaluation.visiting)
      (hboundaries : graph.assumptions.get? field = some boundaries)
      (haccepts : boundaries.any graph.accepts = true) :
      Outcome graph P field evaluation true
        ({ evaluation.enter field with usedAssumption := true }.leave field true)
  | refused {field : String} {evaluation : CheckerEvaluation} {boundaries : List Assumption}
      (hmemo : evaluation.memo.get? field = none) (hroot : graph.isRoot field = false)
      (hvisiting : field ∉ evaluation.visiting)
      (hboundaries : graph.assumptions.get? field = some boundaries)
      (haccepts : boundaries.any graph.accepts = false) :
      Outcome graph P field evaluation false
        (((evaluation.enter field).report (boundaries.map (notEnabled field))).leave field false)
  | missing {field location : String} {evaluation : CheckerEvaluation}
      (hmemo : evaluation.memo.get? field = none) (hroot : graph.isRoot field = false)
      (hvisiting : field ∉ evaluation.visiting)
      (hboundaries : graph.assumptions.get? field = none)
      (hrecipes : graph.mappings.get? field = none) :
      Outcome graph P field evaluation false
        (((evaluation.enter field).report
          [noProducer field (evaluation.enter field).path location]).leave field false)
  | produced {field : String} {evaluation after : CheckerEvaluation} {recipes : List Mapping}
      {result : Bool} (hmemo : evaluation.memo.get? field = none)
      (hroot : graph.isRoot field = false) (hvisiting : field ∉ evaluation.visiting)
      (hboundaries : graph.assumptions.get? field = none)
      (hrecipes : graph.mappings.get? field = some recipes)
      (hloop : Loop graph P (recipes.flatMap Mapping.inputs) true (evaluation.enter field) result
        after) :
      Outcome graph P field evaluation result (after.leave field result)

theorem loop_of_foldlM {P : Searches}
    {search : String → CheckerEvaluation → Option (Bool × CheckerEvaluation)}
    (hsearch : ∀ {field evaluation result after}, search field evaluation = some (result,after) →
      P field evaluation result after) {inputs : List Input} {complete result : Bool}
    {evaluation after : CheckerEvaluation}
    (h : inputs.foldlM (checkInput graph search) (complete,evaluation) = some (result,after)) :
    Loop graph P inputs complete evaluation result after := by
  induction inputs generalizing complete evaluation with
  | nil =>
    cases h
    exact .done
  | cons input inputs ih =>
    rw [List.foldlM_cons] at h
    obtain ⟨⟨complete',between⟩,hinput,hrest⟩ := Option.bind_eq_some_iff.mp h
    simp only [checkInput] at hinput
    split_ifs at hinput with hsource hvisiting htemporal hseed
    · cases hinput
      exact .ordinary hsource hvisiting htemporal (ih hrest)
    · cases hinput
      exact .seeded hsource hvisiting (by simpa using htemporal) hseed (ih hrest)
    · cases hinput
      exact .unseeded hsource hvisiting (by simpa using htemporal) (by simpa using hseed) (ih hrest)
    · obtain ⟨⟨found,between'⟩,hfound,he⟩ := Option.map_eq_some_iff.mp hinput
      cases he
      exact .searched hsource hvisiting (hsearch hfound) (ih hrest)
    · cases hinput
      exact .unknown hsource (ih hrest)

theorem outcome_of_isComplete {P : Searches} {fuel : ℕ}
    (hsearch : ∀ {field evaluation result after},
      isComplete graph fuel field evaluation = some (result,after) → P field evaluation result after)
    {field : String} {result : Bool} {evaluation after : CheckerEvaluation}
    (h : isComplete graph (fuel+1) field evaluation = some (result,after)) :
    Outcome graph P field evaluation result after := by
  rw [isComplete] at h
  split at h
  · rename_i hmemo
    cases h
    exact .known hmemo
  rename_i hmemo
  split_ifs at h with hroot hvisiting
  · cases h
    exact .root hmemo hroot
  · cases h
    exact .revisited hmemo (by simpa using hroot) hvisiting
  have hroot' : graph.isRoot field = false := by simpa using hroot
  split at h
  · rename_i boundaries hboundaries
    split_ifs at h with haccepts
    · cases h
      exact .assumed hmemo hroot' hvisiting hboundaries haccepts
    · cases h
      exact .refused hmemo hroot' hvisiting hboundaries (by simpa using haccepts)
  rename_i hboundaries
  split at h
  · rename_i hrecipes
    cases h
    exact .missing hmemo hroot' hvisiting hboundaries hrecipes
  · rename_i recipes hrecipes
    obtain ⟨⟨result',between⟩,hloop,he⟩ := Option.map_eq_some_iff.mp h
    cases he
    exact .produced hmemo hroot' hvisiting hboundaries hrecipes (loop_of_foldlM hsearch hloop)

theorem isComplete_induction {P : Searches}
    (hP : ∀ {field evaluation result after}, Outcome graph P field evaluation result after →
      P field evaluation result after) {fuel : ℕ} {field : String} {result : Bool}
    {evaluation after : CheckerEvaluation}
    (h : isComplete graph fuel field evaluation = some (result,after)) :
    P field evaluation result after := by
  induction fuel generalizing field evaluation result after with
  | zero => cases h
  | succ fuel ih => exact hP (outcome_of_isComplete ih h)

theorem Kept.refl (evaluation : CheckerEvaluation) : Kept evaluation evaluation :=
  ⟨rfl,List.prefix_refl _,fun _ h => h⟩

theorem Kept.trans {before between after : CheckerEvaluation} (h : Kept before between)
    (h' : Kept between after) : Kept before after where
  visiting := h'.visiting.trans h.visiting
  errors := h.errors.trans h'.errors
  memo field hfield := h'.memo field (h.memo field hfield)

theorem Kept.report (evaluation : CheckerEvaluation) (errors : List CheckDiagnostic) :
    Kept evaluation (evaluation.report errors) :=
  ⟨rfl,List.prefix_append _ _,fun _ h => h⟩

theorem Kept.memoize {before after : CheckerEvaluation} (h : Kept before after) (field : String)
    (result : Bool) : Decides field before (after.memoize field result) where
  visiting := h.visiting
  errors := h.errors
  memo other hother := AList.mem_insert _ |>.mpr (.inr (h.memo other hother))
  decided := AList.mem_insert _ |>.mpr (.inl rfl)

theorem Kept.leave {before after : CheckerEvaluation} {field : String}
    (h : Kept (before.enter field) after) (hvisiting : field ∉ before.visiting) (result : Bool) :
    Decides field before (after.leave field result) where
  visiting := by
    change after.visiting.erase field = before.visiting
    rw [h.visiting]
    exact Finset.erase_insert hvisiting
  errors := h.errors
  memo other hother := AList.mem_insert _ |>.mpr (.inr (h.memo other hother))
  decided := AList.mem_insert _ |>.mpr (.inl rfl)

theorem Loop.kept {P : Searches} (hP : ∀ {field evaluation result after},
    P field evaluation result after → Kept evaluation after) {inputs : List Input}
    {complete result : Bool} {evaluation after : CheckerEvaluation}
    (h : Loop graph P inputs complete evaluation result after) : Kept evaluation after := by
  induction h with
  | done => exact .refl _
  | unknown _ _ ih => exact (Kept.report _ _).trans ih
  | ordinary _ _ _ _ ih => exact (Kept.report _ _).trans ih
  | seeded _ _ _ _ _ ih => exact ih
  | unseeded _ _ _ _ _ ih => exact (Kept.report _ _).trans ih
  | searched _ _ hsearch _ ih => exact (hP hsearch).trans ih

theorem Outcome.decides {P : Searches} (hP : ∀ {field evaluation result after},
    P field evaluation result after → Kept evaluation after) {field : String} {result : Bool}
    {evaluation after : CheckerEvaluation} (h : Outcome graph P field evaluation result after) :
    Decides field evaluation after := by
  cases h with
  | known hmemo => exact ⟨.refl _,HashMap.mem_of_get? hmemo⟩
  | root => exact (Kept.refl _).memoize _ _
  | revisited => exact (Kept.report _ _).memoize _ _
  | assumed _ _ hvisiting =>
    have hused : Kept (evaluation.enter field)
        { evaluation.enter field with usedAssumption := true } :=
      ⟨rfl,List.prefix_refl _,fun _ h => h⟩
    exact hused.leave hvisiting _
  | refused _ _ hvisiting => exact (Kept.report _ _).leave hvisiting _
  | missing _ _ hvisiting => exact (Kept.report _ _).leave hvisiting _
  | produced _ _ hvisiting _ _ hloop => exact (hloop.kept hP).leave hvisiting _

theorem isComplete_decides {fuel : ℕ} {field : String} {result : Bool}
    {evaluation after : CheckerEvaluation}
    (h : isComplete graph fuel field evaluation = some (result,after)) :
    Decides field evaluation after :=
  isComplete_induction (P := fun field evaluation _ after => Decides field evaluation after)
    (fun h => h.decides fun h => h.toKept) h

theorem isComplete_induction_decides {P : Searches}
    (hP : ∀ {field evaluation result after},
      Outcome graph (fun field evaluation result after =>
        Decides field evaluation after ∧ P field evaluation result after)
        field evaluation result after → P field evaluation result after)
    {fuel : ℕ} {field : String} {result : Bool} {evaluation after : CheckerEvaluation}
    (h : isComplete graph fuel field evaluation = some (result,after)) :
    P field evaluation result after := by
  have hboth : Decides field evaluation after ∧ P field evaluation result after := by
    refine isComplete_induction (P := fun field evaluation result after =>
      Decides field evaluation after ∧ P field evaluation result after) (fun hout => ?_) h
    exact ⟨hout.decides fun h => h.1.toKept,hP hout⟩
  exact hboth.2

end Outcomes

section Termination

variable {graph}

theorem foldlM_checkInput_mono
    {search search' : String → CheckerEvaluation → Option (Bool × CheckerEvaluation)}
    (hsearch : ∀ {field evaluation r}, search field evaluation = some r →
      search' field evaluation = some r) {inputs : List Input}
    {state r : Bool × CheckerEvaluation}
    (h : inputs.foldlM (checkInput graph search) state = some r) :
    inputs.foldlM (checkInput graph search') state = some r := by
  induction inputs generalizing state with
  | nil => exact h
  | cons input inputs ih =>
    rw [List.foldlM_cons] at h ⊢
    obtain ⟨between,hinput,hrest⟩ := Option.bind_eq_some_iff.mp h
    refine Option.bind_eq_some_iff.mpr ⟨between,?_,ih hrest⟩
    simp only [checkInput] at hinput ⊢
    split_ifs at hinput ⊢
    · exact hinput
    · exact hinput
    · exact hinput
    · obtain ⟨r,hr,he⟩ := Option.map_eq_some_iff.mp hinput
      rw [hsearch hr,Option.map_some,he]
    · exact hinput

theorem isComplete_mono {fuel fuel' : ℕ} (hfuel : fuel ≤ fuel') {field : String}
    {evaluation : CheckerEvaluation} {r : Bool × CheckerEvaluation}
    (h : isComplete graph fuel field evaluation = some r) :
    isComplete graph fuel' field evaluation = some r := by
  induction fuel generalizing fuel' field evaluation r with
  | zero => cases h
  | succ fuel ih =>
    obtain ⟨fuel',rfl⟩ : ∃ n, fuel' = n+1 := ⟨fuel'-1,by omega⟩
    rw [isComplete] at h ⊢
    cases hmemo : evaluation.memo.get? field with
    | some result => simpa only [hmemo] using h
    | none =>
      simp only [hmemo] at h ⊢
      split_ifs at h ⊢ with hroot hvisiting
      · exact h
      · exact h
      · cases hboundaries : graph.assumptions.get? field with
        | some boundaries => simpa only [hboundaries] using h
        | none =>
          simp only [hboundaries] at h ⊢
          cases hrecipes : graph.mappings.get? field with
          | none => simpa only [hrecipes] using h
          | some recipes =>
            simp only [hrecipes] at h ⊢
            obtain ⟨r',hloop,he⟩ := Option.map_eq_some_iff.mp h
            refine Option.map_eq_some_iff.mpr ⟨r',?_,he⟩
            exact foldlM_checkInput_mono (fun hr => ih (by omega) hr) hloop

theorem foldlM_checkInput_isSome {fuel : ℕ} {visiting : Finset String}
    (hsearch : ∀ {field evaluation}, field ∈ graph.fields →
      evaluation.visiting = visiting → (isComplete graph fuel field evaluation).isSome)
    {inputs : List Input} {complete : Bool} {evaluation : CheckerEvaluation}
    (hvisiting : evaluation.visiting = visiting) :
    (inputs.foldlM (checkInput graph (isComplete graph fuel)) (complete,evaluation)).isSome := by
  induction inputs generalizing complete evaluation with
  | nil => rfl
  | cons input inputs ih =>
    rw [List.foldlM_cons]
    simp only [checkInput]
    split_ifs with hsource hvisited htemporal hseed
    · exact ih hvisiting
    · exact ih hvisiting
    · exact ih hvisiting
    · obtain ⟨⟨found,between⟩,hfound⟩ := Option.isSome_iff_exists.mp
        (hsearch hsource hvisiting)
      rw [hfound]
      exact ih ((isComplete_decides hfound).visiting.trans hvisiting)
    · exact ih hvisiting

theorem isComplete_isSome {fuel : ℕ} {field : String} {evaluation : CheckerEvaluation}
    (hfield : field ∈ graph.fields)
    (hfuel : (graph.fields.keys.toFinset \ evaluation.visiting).card < fuel) :
    (isComplete graph fuel field evaluation).isSome := by
  induction fuel generalizing field evaluation with
  | zero => omega
  | succ fuel ih =>
    rw [isComplete]
    split
    · rfl
    · split_ifs with hroot hvisiting
      · rfl
      · rfl
      · split
        · split_ifs <;> rfl
        · split
          · rfl
          · rw [Option.isSome_map]
            refine foldlM_checkInput_isSome (fun hfield' hvisiting' => ih hfield' ?_) rfl
            have hmem : field ∈ graph.fields.keys.toFinset \ evaluation.visiting :=
              Finset.mem_sdiff.mpr ⟨List.mem_toFinset.mpr (AList.mem_keys.mp hfield),hvisiting⟩
            have hlt : (graph.fields.keys.toFinset \ insert field evaluation.visiting).card <
                (graph.fields.keys.toFinset \ evaluation.visiting).card := by
              refine Finset.card_lt_card (Finset.ssubset_iff_of_subset ?_ |>.mpr ⟨field,hmem,by simp⟩)
              exact Finset.sdiff_subset_sdiff (Finset.Subset.refl _) (Finset.subset_insert _ _)
            rw [hvisiting']
            change (graph.fields.keys.toFinset \ insert field evaluation.visiting).card < fuel
            omega

theorem checkFields_isSome {fuel : ℕ} {fields : List (String × Field)}
    {evaluation : CheckerEvaluation} (hfields : ∀ p ∈ fields, p.1 ∈ graph.fields)
    (hfuel : graph.fields.keys.length < fuel) :
    (checkFields graph fuel fields evaluation).isSome := by
  induction fields generalizing evaluation with
  | nil => rfl
  | cons p fields ih =>
    obtain ⟨hp,hfields⟩ := List.forall_mem_cons.mp hfields
    rw [checkFields]
    split_ifs
    · exact ih hfields
    · have hcard : (graph.fields.keys.toFinset \ (∅ : Finset String)).card < fuel := by
        rw [Finset.sdiff_empty]
        exact (List.toFinset_card_le _).trans_lt hfuel
      have hsome : (isComplete graph fuel p.1 { evaluation with visiting := ∅ }).isSome :=
        isComplete_isSome hp hcard
      obtain ⟨r,hr⟩ := Option.isSome_iff_exists.mp hsome
      rw [hr]
      exact ih hfields

theorem checkFields_mono {fuel fuel' : ℕ} (hfuel : fuel ≤ fuel') {fields : List (String × Field)}
    {evaluation after : CheckerEvaluation}
    (h : checkFields graph fuel fields evaluation = some after) :
    checkFields graph fuel' fields evaluation = some after := by
  induction fields generalizing evaluation with
  | nil => exact h
  | cons p fields ih =>
    rw [checkFields] at h ⊢
    split_ifs at h ⊢
    · exact ih h
    · obtain ⟨r,hr,hrest⟩ := Option.bind_eq_some_iff.mp h
      rw [isComplete_mono hfuel hr]
      exact ih hrest

theorem mem_iter {V : Type} {m : HashMap String V} {p : String × V} :
    p ∈ iter m ↔ m.get? p.1 = some p.2 := by
  rw [iter,List.mem_insertionSort,← HashMap.mem_entries_iff,List.mem_map]
  constructor
  · rintro ⟨e,he,rfl⟩
    exact he
  · exact fun h => ⟨⟨p.1,p.2⟩,h,rfl⟩

theorem registryOf_concat (descriptors : List Descriptor) (d : Descriptor) :
    registryOf (descriptors ++ [d]) = (registryOf descriptors).register d :=
  List.foldl_concat ..

theorem length_fields (descriptors : List Descriptor) :
    (registryOf descriptors).fields.keys.length ≤ descriptors.length := by
  induction descriptors using List.reverseRecOn with
  | nil => rfl
  | append_singleton descriptors d ih =>
    rw [registryOf_concat,List.length_append,List.length_singleton]
    cases d with
    | field d =>
      change ((registryOf descriptors).fields.insert d.field d).keys.length ≤ _
      rw [AList.keys_insert,List.length_cons]
      exact Nat.succ_le_succ ((List.length_erase_le).trans ih)
    | mapping | assumption => exact ih.trans (Nat.le_succ _)

theorem checkReferences_isSome {fuel : ℕ} {descriptors : List Descriptor} (options : CheckOptions)
    (hfuel : descriptors.length < fuel) : (checkReferences fuel descriptors options).isSome := by
  rw [checkReferences]
  split
  · rfl
  · rename_i first others hsorted
    rw [Option.isSome_map]
    refine checkFields_isSome (fun p hp => ?_) ?_
    · exact HashMap.mem_of_get? (mem_iter.mp hp)
    · have hlen := congrArg List.length hsorted
      rw [List.length_insertionSort] at hlen
      exact ((length_fields (first :: others)).trans hlen.ge).trans_lt hfuel

theorem checkReferences_mono {fuel fuel' : ℕ} (hfuel : fuel ≤ fuel')
    {descriptors : List Descriptor} {options : CheckOptions} {r : Except CheckError CheckReport}
    (h : checkReferences fuel descriptors options = some r) :
    checkReferences fuel' descriptors options = some r := by
  rw [checkReferences] at h ⊢
  split at h
  · exact h
  · obtain ⟨evaluation,hfields,he⟩ := Option.map_eq_some_iff.mp h
    exact Option.map_eq_some_iff.mpr ⟨evaluation,checkFields_mono hfuel hfields,he⟩

/-- The check of a descriptor set, with fuel that is always enough. -/
def checkDescriptors (descriptors : List Descriptor) (options : CheckOptions) :
    Except CheckError CheckReport :=
  (checkReferences (descriptors.length+1) descriptors options).get
    (checkReferences_isSome options (Nat.lt_succ_self _))

theorem checkReferences_eq {fuel : ℕ} {descriptors : List Descriptor} (options : CheckOptions)
    (hfuel : descriptors.length < fuel) :
    checkReferences fuel descriptors options = some (checkDescriptors descriptors options) :=
  checkReferences_mono hfuel (Option.some_get _).symm

end Termination

end ModelChecker
end EventCore
