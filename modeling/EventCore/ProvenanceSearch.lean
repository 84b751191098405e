import EventCore.GraphSearch
import EventCore.ModelChecker

/-! What the search of the checker finds out about the provenance of fields. An input is strict if the
search may not come back through it: it is not temporal, or its source has no seed. -/
namespace EventCore
namespace ProvenanceSearch
open ModelChecker Relation

variable {graph : CheckerGraph}

/-- The field is neither a root nor a boundary, so its recipes are searched. -/
structure Searched (graph : CheckerGraph) (field : String) (recipes : List Mapping) : Prop where
  root : graph.isRoot field = false
  boundary : graph.assumptions.get? field = none
  recipes : graph.mappings.get? field = some recipes

def Supplies (graph : CheckerGraph) (input : Input) (field : String) : Prop :=
  ∃ recipes, Searched graph field recipes ∧ input ∈ recipes.flatMap Mapping.inputs

def Strict (graph : CheckerGraph) (input : Input) : Prop :=
  input.temporal = false ∨ graph.hasNonTemporalSeed input.source = false

/-- From a field to the source of one of its inputs. -/
def Link (graph : CheckerGraph) (field source : String) : Prop :=
  ∃ input, Supplies graph input field ∧ input.source = source

def StrictLink (graph : CheckerGraph) (field source : String) : Prop :=
  ∃ input, Supplies graph input field ∧ Strict graph input ∧ input.source = source

/-- Nothing is missing at the field itself: a root, an accepted boundary, or recipes from modeled
fields only. -/
def Wired (graph : CheckerGraph) (field : String) : Prop :=
  graph.isRoot field = true ∨
  (∃ boundaries, graph.assumptions.get? field = some boundaries ∧
    boundaries.any graph.accepts = true) ∨
  graph.assumptions.get? field = none ∧ ∃ recipes, graph.mappings.get? field = some recipes ∧
    ∀ input ∈ recipes.flatMap Mapping.inputs, input.source ∈ graph.fields

inductive Grounded (graph : CheckerGraph) : String → Prop
  | intro {field : String} (hwired : Wired graph field)
      (hsources : ∀ source, StrictLink graph field source → Grounded graph source) :
      Grounded graph field

theorem Searched.supplies_iff {field : String} {recipes : List Mapping}
    (h : Searched graph field recipes) {input : Input} :
    Supplies graph input field ↔ input ∈ recipes.flatMap Mapping.inputs := by
  constructor
  · rintro ⟨recipes',h',hinput⟩
    obtain rfl := Option.some.inj (h.recipes.symm.trans h'.recipes)
    exact hinput
  · exact fun hinput => ⟨recipes,h,hinput⟩

theorem StrictLink.link {field source : String} (h : StrictLink graph field source) :
    Link graph field source := by
  obtain ⟨input,hinput,_,hsource⟩ := h
  exact ⟨input,hinput,hsource⟩

theorem not_link_of_root {field : String} (h : graph.isRoot field = true) (source : String) :
    ¬ Link graph field source := by
  rintro ⟨_,⟨_,hsearched,_⟩,_⟩
  simp [hsearched.root] at h

theorem not_link_of_boundary {field : String} {boundaries : List Assumption}
    (h : graph.assumptions.get? field = some boundaries) (source : String) :
    ¬ Link graph field source := by
  rintro ⟨_,⟨_,hsearched,_⟩,_⟩
  simp [hsearched.boundary] at h

theorem Grounded.acc {field : String} (h : Grounded graph field) :
    Acc (fun source target => StrictLink graph target source) field := by
  induction h with
  | intro _ _ ih => exact ⟨_,fun source hsource => ih source hsource⟩

theorem Grounded.no_cycle {field : String} (h : Grounded graph field) :
    ¬ TransGen (fun source target => StrictLink graph target source) field field :=
  GraphSearch.not_transGen_self h.acc

def Bounded (graph : CheckerGraph) : Prop :=
  ∀ field boundaries, graph.assumptions.get? field = some boundaries → boundaries ≠ []

section Soundness

structure Settled (graph : CheckerGraph) (evaluation : CheckerEvaluation) : Prop where
  complete : ∀ field result, evaluation.memo.get? field = some result → result = true
  grounded : ∀ field ∈ evaluation.memo, Grounded graph field
  used : ∀ field ∈ evaluation.memo, graph.isRoot field = false → field ∈ graph.assumptions →
    evaluation.usedAssumption = true

theorem Settled.decide {evaluation after : CheckerEvaluation} {field : String}
    (h : Settled graph evaluation) (hmemo : after.memo = evaluation.memo.insert field true)
    (hused : evaluation.usedAssumption = true → after.usedAssumption = true)
    (hgrounded : Grounded graph field)
    (hboundary : graph.isRoot field = false → field ∈ graph.assumptions →
      after.usedAssumption = true) : Settled graph after where
  complete other result hother := by
    rw [hmemo,HashMap.get?_insert] at hother
    split_ifs at hother
    · exact (Option.some.inj hother).symm
    · exact h.complete other result hother
  grounded other hother := by
    rw [hmemo] at hother
    rcases AList.mem_insert _ |>.mp hother with rfl | hother
    · exact hgrounded
    · exact h.grounded other hother
  used other hother hroot hbound := by
    rw [hmemo] at hother
    rcases AList.mem_insert _ |>.mp hother with rfl | hother
    · exact hboundary hroot hbound
    · exact hused (h.used other hother hroot hbound)

theorem not_silent {evaluation after : CheckerEvaluation} {errors : List CheckDiagnostic}
    (h : (evaluation.report errors).errors <+: after.errors) (hne : errors ≠ [])
    (hsilent : after.errors = []) : False := by
  rw [hsilent,List.prefix_nil] at h
  exact hne (List.append_eq_nil_iff.mp h).2

/-- A silent loop has decided every source that is not visited, and strict inputs have no other. -/
theorem loop_settled {P : Searches} {inputs : List Input} {complete result : Bool}
    {evaluation after : CheckerEvaluation}
    (hP : ∀ {field evaluation result after}, P field evaluation result after →
      Decides field evaluation after ∧
        (after.errors = [] → Settled graph evaluation → result = true ∧ Settled graph after))
    (h : Loop graph P inputs complete evaluation result after) (hsilent : after.errors = [])
    (hsettled : Settled graph evaluation) :
    result = complete ∧ Settled graph after ∧ ∀ input ∈ inputs, input.source ∈ graph.fields ∧
      (Strict graph input → input.source ∈ after.memo) := by
  have hkept : ∀ {field evaluation result after}, P field evaluation result after →
      Kept evaluation after := fun h => (hP h).1.toKept
  induction h with
  | done => exact ⟨rfl,hsettled,by simp⟩
  | unknown _ rest => exact (not_silent (rest.kept hkept).errors (by simp) hsilent).elim
  | ordinary _ _ _ rest => exact (not_silent (rest.kept hkept).errors (by simp) hsilent).elim
  | unseeded _ _ _ _ rest => exact (not_silent (rest.kept hkept).errors (by simp) hsilent).elim
  | seeded hsource _ htemporal hseed _ ih =>
    obtain ⟨hresult,hafter,hinputs⟩ := ih hsilent hsettled
    refine ⟨hresult,hafter,List.forall_mem_cons.mpr ⟨⟨hsource,fun hstrict => ?_⟩,hinputs⟩⟩
    rcases hstrict with hstrict | hstrict
    · simp [htemporal] at hstrict
    · simp [hseed] at hstrict
  | searched hsource _ hsearch rest ih =>
    have hrest := rest.kept hkept
    obtain ⟨hdecides,hsearched⟩ := hP hsearch
    have hbetween := List.prefix_nil.mp (hsilent ▸ hrest.errors)
    obtain ⟨rfl,hsettled'⟩ := hsearched hbetween hsettled
    obtain ⟨hresult,hafter,hinputs⟩ := ih hsilent hsettled'
    refine ⟨by rw [hresult,Bool.and_true],hafter,List.forall_mem_cons.mpr ⟨⟨hsource,?_⟩,hinputs⟩⟩
    exact fun _ => hrest.memo _ hdecides.decided

theorem isComplete_settled (hbounded : Bounded graph) {fuel : ℕ} {field : String} {result : Bool}
    {evaluation after : CheckerEvaluation}
    (h : isComplete graph fuel field evaluation = some (result,after))
    (hsilent : after.errors = []) (hsettled : Settled graph evaluation) :
    result = true ∧ Settled graph after := by
  revert hsilent hsettled
  refine isComplete_induction_decides (P := fun field evaluation result after =>
    after.errors = [] → Settled graph evaluation → result = true ∧ Settled graph after) ?_ h
  intro field evaluation result after hout hsilent hsettled
  cases hout with
  | known hmemo => exact ⟨hsettled.complete field result hmemo,hsettled⟩
  | root _ hroot =>
    refine ⟨rfl,hsettled.decide rfl id (.intro (.inl hroot) fun source hsource => ?_) fun h => ?_⟩
    · exact absurd hsource.link (not_link_of_root hroot source)
    · simp [hroot] at h
  | revisited =>
    exact (not_silent (List.prefix_refl _) (by simp) hsilent).elim
  | assumed _ _ _ hboundaries haccepts =>
    refine ⟨rfl,hsettled.decide rfl (fun _ => rfl) (.intro ?_ fun source hsource => ?_)
      fun _ _ => rfl⟩
    · exact .inr (.inl ⟨_,hboundaries,haccepts⟩)
    · exact absurd hsource.link (not_link_of_boundary hboundaries source)
  | refused _ _ _ hboundaries =>
    have hne := hbounded _ _ hboundaries
    exact (not_silent (List.prefix_refl _) (by simpa using hne) hsilent).elim
  | missing =>
    exact (not_silent (List.prefix_refl _) (by simp) hsilent).elim
  | produced _ hroot _ hboundary hrecipes hloop =>
    have hsearched : Searched graph field _ := ⟨hroot,hboundary,hrecipes⟩
    have hentered : Settled graph (evaluation.enter field) := ⟨hsettled.1,hsettled.2,hsettled.3⟩
    obtain ⟨rfl,hafter,hinputs⟩ := loop_settled (fun h => h) hloop hsilent hentered
    refine ⟨rfl,hafter.decide rfl id (.intro ?_ fun source hsource => ?_) fun _ h => ?_⟩
    · exact .inr (.inr ⟨hboundary,_,hrecipes,fun input hinput => (hinputs input hinput).1⟩)
    · obtain ⟨input,hinput,hstrict,rfl⟩ := hsource
      exact hafter.grounded _ ((hinputs input (hsearched.supplies_iff.mp hinput)).2 hstrict)
    · exact absurd hboundary (Option.isSome_iff_ne_none.mp (HashMap.get?_isSome_iff.mpr h))

end Soundness

section Completeness

/-- Nothing is missing anywhere, and the strict inputs are on no cycle. -/
structure Sustained (graph : CheckerGraph) : Prop where
  wired : ∀ field ∈ graph.fields, Wired graph field
  strict : ∀ field source, StrictLink graph field source →
    ¬ ReflTransGen (Link graph) source field

/-- The fields being visited lead to this one, and what has been decided is complete. -/
structure OnPath (graph : CheckerGraph) (field : String) (evaluation : CheckerEvaluation) :
    Prop where
  visiting : ∀ other ∈ evaluation.visiting, ReflTransGen (Link graph) other field
  memo : ∀ other result, evaluation.memo.get? other = some result → result = true

theorem OnPath.decide {field other : String} {evaluation after : CheckerEvaluation}
    (h : OnPath graph field evaluation) (hvisiting : after.visiting ⊆ evaluation.visiting)
    (hmemo : after.memo = evaluation.memo.insert other true) : OnPath graph field after where
  visiting v hv := h.visiting v (hvisiting hv)
  memo v result hv := by
    rw [hmemo,HashMap.get?_insert] at hv
    split_ifs at hv
    · exact (Option.some.inj hv).symm
    · exact h.memo v result hv

/-- The search of a field that has not been visited: complete, and silent. -/
def Silent (graph : CheckerGraph) : Searches := fun field evaluation result after =>
  field ∈ graph.fields → field ∉ evaluation.visiting → OnPath graph field evaluation →
    result = true ∧ after.errors = evaluation.errors ∧ OnPath graph field after

theorem loop_silent (hgraph : Sustained graph) {field : String} {recipes : List Mapping}
    (hsearched : Searched graph field recipes) (hfield : field ∈ graph.fields)
    {inputs : List Input} {complete result : Bool} {evaluation after : CheckerEvaluation}
    (h : Loop graph (fun field evaluation result after =>
      Decides field evaluation after ∧ Silent graph field evaluation result after)
      inputs complete evaluation result after)
    (hinputs : ∀ input ∈ inputs, input ∈ recipes.flatMap Mapping.inputs)
    (hpath : OnPath graph field evaluation) :
    result = complete ∧ after.errors = evaluation.errors ∧ OnPath graph field after := by
  have hknown : ∀ input ∈ recipes.flatMap Mapping.inputs, input.source ∈ graph.fields := by
    rcases hgraph.wired field hfield with hroot | ⟨_,hboundary,_⟩ | ⟨_,_,hrecipes,hsources⟩
    · simp [hsearched.root] at hroot
    · simp [hsearched.boundary] at hboundary
    · obtain rfl := Option.some.inj (hsearched.recipes.symm.trans hrecipes)
      exact hsources
  -- a source that is being visited leads back to the field
  have hcycle : ∀ {input : Input} {evaluation : CheckerEvaluation},
      input ∈ recipes.flatMap Mapping.inputs → OnPath graph field evaluation →
      input.source ∈ evaluation.visiting → ¬ Strict graph input := by
    intro input evaluation hinput hpath hvisiting hstrict
    exact hgraph.strict field input.source
      ⟨input,hsearched.supplies_iff.mpr hinput,hstrict,rfl⟩ (hpath.visiting _ hvisiting)
  induction h with
  | done => exact ⟨rfl,rfl,hpath⟩
  | unknown hsource =>
    exact absurd (hknown _ (hinputs _ List.mem_cons_self)) hsource
  | ordinary _ hvisiting htemporal =>
    exact absurd (.inl htemporal) (hcycle (hinputs _ List.mem_cons_self) hpath hvisiting)
  | unseeded _ hvisiting _ hseed =>
    exact absurd (.inr hseed) (hcycle (hinputs _ List.mem_cons_self) hpath hvisiting)
  | seeded _ _ _ _ _ ih => exact ih (fun input h => hinputs input (List.mem_cons_of_mem _ h)) hpath
  | @searched input _ _ _ _ _ between _ hsource hvisiting hsearch _ ih =>
    have hlink : Link graph field input.source :=
      ⟨input,hsearched.supplies_iff.mpr (hinputs _ List.mem_cons_self),rfl⟩
    obtain ⟨hdecides,hsilent⟩ := hsearch
    obtain ⟨rfl,herrors,hbetween⟩ := hsilent hsource hvisiting
      ⟨fun v hv => (hpath.visiting v hv).tail hlink,hpath.memo⟩
    have hback : OnPath graph field between :=
      ⟨fun v hv => hpath.visiting v (hdecides.visiting ▸ hv),hbetween.memo⟩
    obtain ⟨hresult,herrors',hafter⟩ :=
      ih (fun input h => hinputs input (List.mem_cons_of_mem _ h)) hback
    exact ⟨by rw [hresult,Bool.and_true],herrors'.trans herrors,hafter⟩

theorem isComplete_silent (hgraph : Sustained graph) {fuel : ℕ} {field : String} {result : Bool}
    {evaluation after : CheckerEvaluation}
    (h : isComplete graph fuel field evaluation = some (result,after)) :
    Silent graph field evaluation result after := by
  refine isComplete_induction_decides (P := Silent graph) ?_ h
  intro field evaluation result after hout hfield hfresh hpath
  cases hout with
  | known hmemo => exact ⟨hpath.memo field result hmemo,rfl,hpath⟩
  | root => exact ⟨rfl,rfl,hpath.decide (Finset.Subset.refl _) rfl⟩
  | revisited _ _ hvisiting => exact absurd hvisiting hfresh
  | assumed =>
    refine ⟨rfl,rfl,hpath.decide ?_ rfl⟩
    exact (Finset.erase_insert hfresh).subset
  | refused _ hroot _ hboundaries haccepts =>
    rcases hgraph.wired field hfield with hroot' | ⟨_,hboundary,haccepts'⟩ | ⟨hboundary,_⟩
    · simp [hroot] at hroot'
    · obtain rfl := Option.some.inj (hboundaries.symm.trans hboundary)
      simp [haccepts] at haccepts'
    · simp [hboundaries] at hboundary
  | missing _ hroot _ hboundary hrecipes =>
    rcases hgraph.wired field hfield with hroot' | ⟨_,hboundary',_⟩ | ⟨_,_,hrecipes',_⟩
    · simp [hroot] at hroot'
    · simp [hboundary] at hboundary'
    · simp [hrecipes] at hrecipes'
  | @produced _ _ between recipes _ _ hroot _ hboundary hrecipes hloop =>
    have hentered : OnPath graph field (evaluation.enter field) := by
      refine ⟨fun v hv => ?_,hpath.memo⟩
      rcases Finset.mem_insert.mp hv with rfl | hv
      · exact .refl
      · exact hpath.visiting v hv
    obtain ⟨rfl,herrors,hbetween⟩ :=
      loop_silent hgraph ⟨hroot,hboundary,hrecipes⟩ hfield hloop (fun _ h => h) hentered
    exact ⟨rfl,herrors,hbetween.decide (Finset.erase_subset _ _) rfl⟩

end Completeness

section Entry

/-- What is decided has its sources decided or visited, and no strict input from the entry. -/
def Explored (graph : CheckerGraph) (entry : String) (evaluation : CheckerEvaluation) : Prop :=
  ∀ field ∈ evaluation.memo,
    (∀ source, Link graph field source →
      source ∈ evaluation.memo ∨ source ∈ evaluation.visiting) ∧
    ¬ StrictLink graph field entry

def Explores (graph : CheckerGraph) (entry : String) : Searches :=
  fun _ evaluation _ after => entry ∈ evaluation.visiting → after.errors = [] →
    Explored graph entry evaluation → Explored graph entry after

theorem Explored.memoize {entry field : String} {evaluation : CheckerEvaluation} {result : Bool}
    (h : Explored graph entry evaluation) (hlinks : ∀ source, ¬ Link graph field source) :
    Explored graph entry (evaluation.memoize field result) := by
  intro other hother
  rcases AList.mem_insert _ |>.mp hother with rfl | hother
  · exact ⟨fun source hsource => absurd hsource (hlinks source),
      fun hstrict => hlinks entry hstrict.link⟩
  · obtain ⟨hsources,hstrict⟩ := h other hother
    refine ⟨fun source hsource => ?_,hstrict⟩
    exact (hsources source hsource).imp_left fun h => AList.mem_insert _ |>.mpr (.inr h)

theorem Explored.enter {entry : String} {evaluation : CheckerEvaluation}
    (h : Explored graph entry evaluation) (field : String) :
    Explored graph entry (evaluation.enter field) := by
  intro other hother
  obtain ⟨hsources,hstrict⟩ := h other hother
  exact ⟨fun source hsource => (hsources source hsource).imp_right Finset.mem_insert_of_mem,hstrict⟩

theorem Explored.leave {entry field : String} {evaluation : CheckerEvaluation} {result : Bool}
    (h : Explored graph entry evaluation)
    (hsources : ∀ source, Link graph field source →
      source ∈ evaluation.memo ∨ source ∈ evaluation.visiting)
    (hstrict : ¬ StrictLink graph field entry) :
    Explored graph entry (evaluation.leave field result) := by
  have hmove : ∀ source, source ∈ evaluation.memo ∨ source ∈ evaluation.visiting →
      source ∈ (evaluation.leave field result).memo ∨
        source ∈ (evaluation.leave field result).visiting := by
    rintro source (hmemo | hvisiting)
    · exact .inl (AList.mem_insert _ |>.mpr (.inr hmemo))
    · by_cases he : source = field
      · exact .inl (AList.mem_insert _ |>.mpr (.inl he))
      · exact .inr (Finset.mem_erase.mpr ⟨he,hvisiting⟩)
  intro other hother
  rcases AList.mem_insert _ |>.mp hother with rfl | hother
  · exact ⟨fun source hsource => hmove source (hsources source hsource),hstrict⟩
  · exact ⟨fun source hsource => hmove source ((h other hother).1 source hsource),(h other hother).2⟩

theorem loop_explored {entry : String} {inputs : List Input} {complete result : Bool}
    {evaluation after : CheckerEvaluation}
    (h : Loop graph (fun field evaluation result after =>
      Decides field evaluation after ∧ Explores graph entry field evaluation result after)
      inputs complete evaluation result after)
    (hentry : entry ∈ evaluation.visiting) (hsilent : after.errors = [])
    (hexplored : Explored graph entry evaluation) :
    Explored graph entry after ∧ ∀ input ∈ inputs,
      (input.source ∈ after.memo ∨ input.source ∈ after.visiting) ∧
        (input.source = entry → ¬ Strict graph input) := by
  have hkept : ∀ {field evaluation result after},
      Decides field evaluation after ∧ Explores graph entry field evaluation result after →
      Kept evaluation after := fun h => h.1.toKept
  induction h with
  | done => exact ⟨hexplored,by simp⟩
  | unknown _ rest => exact (not_silent (rest.kept hkept).errors (by simp) hsilent).elim
  | ordinary _ _ _ rest => exact (not_silent (rest.kept hkept).errors (by simp) hsilent).elim
  | unseeded _ _ _ _ rest => exact (not_silent (rest.kept hkept).errors (by simp) hsilent).elim
  | seeded _ hvisiting htemporal hseed rest ih =>
    obtain ⟨hafter,hinputs⟩ := ih hentry hsilent hexplored
    refine ⟨hafter,List.forall_mem_cons.mpr ⟨⟨.inr ?_,fun _ hstrict => ?_⟩,hinputs⟩⟩
    · rwa [(rest.kept hkept).visiting]
    · rcases hstrict with hstrict | hstrict
      · simp [htemporal] at hstrict
      · simp [hseed] at hstrict
  | searched _ hvisiting hsearch rest ih =>
    obtain ⟨hdecides,hexplores⟩ := hsearch
    have hrest := rest.kept hkept
    have hbetween := List.prefix_nil.mp (hsilent ▸ hrest.errors)
    obtain ⟨hafter,hinputs⟩ := ih (hdecides.visiting ▸ hentry) hsilent
      (hexplores hentry hbetween hexplored)
    refine ⟨hafter,List.forall_mem_cons.mpr ⟨⟨?_,fun he => ?_⟩,hinputs⟩⟩
    · exact .inl (hrest.memo _ hdecides.decided)
    · exact absurd (he ▸ hentry) hvisiting

theorem Searched.explored {field entry : String} {recipes : List Mapping}
    {evaluation : CheckerEvaluation} {result : Bool} (h : Searched graph field recipes)
    (hexplored : Explored graph entry evaluation)
    (hinputs : ∀ input ∈ recipes.flatMap Mapping.inputs,
      (input.source ∈ evaluation.memo ∨ input.source ∈ evaluation.visiting) ∧
        (input.source = entry → ¬ Strict graph input)) :
    Explored graph entry (evaluation.leave field result) := by
  refine hexplored.leave (fun source hsource => ?_) ?_
  · obtain ⟨input,hinput,rfl⟩ := hsource
    exact (hinputs input (h.supplies_iff.mp hinput)).1
  · rintro ⟨input,hinput,hstrict,he⟩
    exact (hinputs input (h.supplies_iff.mp hinput)).2 he hstrict

theorem outcome_explored {entry field : String} {result : Bool}
    {evaluation after : CheckerEvaluation}
    (h : Outcome graph (fun field evaluation result after =>
      Decides field evaluation after ∧ Explores graph entry field evaluation result after)
      field evaluation result after)
    (hentry : entry ∈ (evaluation.enter field).visiting) (hsilent : after.errors = [])
    (hexplored : Explored graph entry evaluation) : Explored graph entry after := by
  have hleave : ∀ {boundaries : List Assumption} {evaluation : CheckerEvaluation} {result : Bool},
      graph.assumptions.get? field = some boundaries → Explored graph entry evaluation →
      Explored graph entry (evaluation.leave field result) := by
    intro boundaries evaluation result hboundaries hexplored
    have hlinks := not_link_of_boundary hboundaries
    exact hexplored.leave (fun source h => absurd h (hlinks source)) fun h => hlinks entry h.link
  cases h with
  | known => exact hexplored
  | root _ hroot => exact hexplored.memoize (not_link_of_root hroot)
  | revisited => exact (not_silent (List.prefix_refl _) (by simp) hsilent).elim
  | assumed _ _ _ hboundaries =>
    have hused : Explored graph entry { evaluation.enter field with usedAssumption := true } :=
      hexplored.enter field
    exact hleave hboundaries hused
  | @refused _ _ boundaries _ _ _ hboundaries =>
    have hrefused : Explored graph entry
        ((evaluation.enter field).report (boundaries.map (notEnabled field))) :=
      hexplored.enter field
    exact hleave hboundaries hrefused
  | missing => exact (not_silent (List.prefix_refl _) (by simp) hsilent).elim
  | produced _ hroot _ hboundary hrecipes hloop =>
    obtain ⟨hafter,hinputs⟩ := loop_explored hloop hentry hsilent (hexplored.enter field)
    exact Searched.explored ⟨hroot,hboundary,hrecipes⟩ hafter hinputs

theorem isComplete_explores {entry : String} {fuel : ℕ} {field : String} {result : Bool}
    {evaluation after : CheckerEvaluation}
    (h : isComplete graph fuel field evaluation = some (result,after)) :
    Explores graph entry field evaluation result after := by
  refine isComplete_induction_decides (P := Explores graph entry) ?_ h
  exact fun hout hentry => outcome_explored hout (Finset.mem_insert_of_mem hentry)

theorem entry_strict {entry : String} {fuel : ℕ} {result : Bool}
    {evaluation after : CheckerEvaluation} (hmemo : evaluation.memo = ∅)
    (hvisiting : evaluation.visiting = ∅)
    (h : isComplete graph fuel entry evaluation = some (result,after)) (hsilent : after.errors = [])
    {field : String} (hreach : ReflTransGen (Link graph) entry field) :
    ¬ StrictLink graph field entry := by
  cases fuel with
  | zero => cases h
  | succ fuel =>
    have hempty : Explored graph entry evaluation := by
      intro other hother
      rw [hmemo] at hother
      exact absurd hother (AList.notMem_empty other)
    have hexplored : Explored graph entry after :=
      outcome_explored (outcome_of_isComplete
        (fun h => ⟨isComplete_decides h,isComplete_explores h⟩) h)
        (Finset.mem_insert_self _ _) hsilent hempty
    have hdecides := isComplete_decides h
    have hclosed : field ∈ after.memo := by
      induction hreach with
      | refl => exact hdecides.decided
      | tail _ hlink ih =>
        rcases (hexplored _ ih).1 _ hlink with hmemo | hvisited
        · exact hmemo
        · simp [hdecides.visiting,hvisiting] at hvisited
    exact (hexplored field hclosed).2

end Entry

section Fields

def Accepted (graph : CheckerGraph) (field : String) : Prop :=
  field ∈ graph.fields ∧ graph.isRoot field = false ∧
    ∃ boundaries, graph.assumptions.get? field = some boundaries ∧
      boundaries.any graph.accepts = true

theorem loop_used {inputs : List Input} {complete result : Bool}
    {evaluation after : CheckerEvaluation}
    (h : Loop graph (fun field evaluation _ after => field ∈ graph.fields →
      after.usedAssumption = true → evaluation.usedAssumption = true ∨ ∃ field, Accepted graph field)
      inputs complete evaluation result after) (hused : after.usedAssumption = true) :
    evaluation.usedAssumption = true ∨ ∃ field, Accepted graph field := by
  induction h with
  | done => exact .inl hused
  | unknown _ _ ih => exact ih hused
  | ordinary _ _ _ _ ih => exact ih hused
  | seeded _ _ _ _ _ ih => exact ih hused
  | unseeded _ _ _ _ _ ih => exact ih hused
  | searched hsource _ hsearch _ ih =>
    rcases ih hused with hbetween | haccepted
    · exact hsearch hsource hbetween
    · exact .inr haccepted

theorem isComplete_used {fuel : ℕ} {field : String} {result : Bool}
    {evaluation after : CheckerEvaluation}
    (h : isComplete graph fuel field evaluation = some (result,after)) :
    field ∈ graph.fields → after.usedAssumption = true →
      evaluation.usedAssumption = true ∨ ∃ field, Accepted graph field := by
  refine isComplete_induction (P := fun field evaluation _ after => field ∈ graph.fields →
    after.usedAssumption = true → evaluation.usedAssumption = true ∨
      ∃ field, Accepted graph field) ?_ h
  intro field evaluation result after hout hfield hused
  cases hout with
  | known | root | revisited | refused | missing => exact .inl hused
  | assumed _ hroot _ hboundaries haccepts =>
    exact .inr ⟨field,hfield,hroot,_,hboundaries,haccepts⟩
  | produced _ _ _ _ _ hloop =>
    have hentered := loop_used hloop hused
    exact hentered

def Listed (graph : CheckerGraph) (fields : List (String × Field)) : Prop :=
  ∀ p ∈ fields, graph.fields.get? p.1 = some p.2

theorem Listed.isRoot {fields : List (String × Field)} (h : Listed graph fields)
    {p : String × Field} (hp : p ∈ fields) : graph.isRoot p.1 = p.2.root := by
  rw [CheckerGraph.isRoot,h p hp]
  rfl

theorem checkFields_errors {fuel : ℕ} {fields : List (String × Field)}
    {evaluation after : CheckerEvaluation}
    (h : checkFields graph fuel fields evaluation = some after) :
    evaluation.errors <+: after.errors ∧ ∀ field ∈ evaluation.memo, field ∈ after.memo := by
  induction fields generalizing evaluation with
  | nil =>
    cases h
    exact ⟨List.prefix_refl _,fun _ h => h⟩
  | cons p fields ih =>
    rw [checkFields] at h
    split_ifs at h
    · obtain ⟨herrors,hmemo⟩ := ih h
      exact ⟨herrors,fun field hfield => hmemo field (AList.mem_insert _ |>.mpr (.inr hfield))⟩
    · obtain ⟨⟨result,between⟩,hsearch,hrest⟩ := Option.bind_eq_some_iff.mp h
      have hdecides := isComplete_decides hsearch
      obtain ⟨herrors,hmemo⟩ := ih hrest
      exact ⟨hdecides.errors.trans herrors,
        fun field hfield => hmemo field (hdecides.memo field hfield)⟩

theorem checkFields_settled (hbounded : Bounded graph) {fuel : ℕ} {fields : List (String × Field)}
    {evaluation after : CheckerEvaluation} (hfields : Listed graph fields)
    (h : checkFields graph fuel fields evaluation = some after) (hsilent : after.errors = [])
    (hsettled : Settled graph evaluation) :
    Settled graph after ∧ ∀ p ∈ fields, p.1 ∈ after.memo := by
  induction fields generalizing evaluation with
  | nil =>
    cases h
    exact ⟨hsettled,by simp⟩
  | cons p fields ih =>
    have hroot := hfields.isRoot (p := p) List.mem_cons_self
    have hrest : Listed graph fields := fun q hq => hfields q (List.mem_cons_of_mem _ hq)
    rw [checkFields] at h
    split_ifs at h with hp
    · have hdecided : Settled graph (evaluation.memoize p.1 true) := by
        refine hsettled.decide rfl id (.intro (.inl (hroot.trans hp)) fun source hsource => ?_)
          fun h => ?_
        · exact absurd hsource.link (not_link_of_root (hroot.trans hp) source)
        · simp [hroot,hp] at h
      obtain ⟨hafter,hmemo⟩ := ih hrest h hdecided
      refine ⟨hafter,List.forall_mem_cons.mpr ⟨?_,hmemo⟩⟩
      exact (checkFields_errors h).2 _ (AList.mem_insert _ |>.mpr (.inl rfl))
    · obtain ⟨⟨result,between⟩,hsearch,hnext⟩ := Option.bind_eq_some_iff.mp h
      have hbetween := List.prefix_nil.mp (hsilent ▸ (checkFields_errors hnext).1)
      have hstart : Settled graph { evaluation with visiting := ∅ } :=
        ⟨hsettled.1,hsettled.2,hsettled.3⟩
      obtain ⟨_,hsettled'⟩ := isComplete_settled hbounded hsearch hbetween hstart
      obtain ⟨hafter,hmemo⟩ := ih hrest hnext hsettled'
      refine ⟨hafter,List.forall_mem_cons.mpr ⟨?_,hmemo⟩⟩
      exact (checkFields_errors hnext).2 _ (isComplete_decides hsearch).decided

theorem checkFields_used {fuel : ℕ} {fields : List (String × Field)}
    {evaluation after : CheckerEvaluation} (hfields : Listed graph fields)
    (h : checkFields graph fuel fields evaluation = some after)
    (hused : after.usedAssumption = true) :
    evaluation.usedAssumption = true ∨ ∃ field, Accepted graph field := by
  induction fields generalizing evaluation with
  | nil =>
    cases h
    exact .inl hused
  | cons p fields ih =>
    have hrest : Listed graph fields := fun q hq => hfields q (List.mem_cons_of_mem _ hq)
    rw [checkFields] at h
    split_ifs at h
    · have hstart := ih hrest h
      exact hstart
    · obtain ⟨⟨result,between⟩,hsearch,hnext⟩ := Option.bind_eq_some_iff.mp h
      rcases ih hrest hnext with hbetween | haccepted
      · have hstart := isComplete_used hsearch
          (HashMap.mem_of_get? (hfields p List.mem_cons_self)) hbetween
        exact hstart
      · exact .inr haccepted

theorem checkFields_silent (hgraph : Sustained graph) {fuel : ℕ} {fields : List (String × Field)}
    {evaluation after : CheckerEvaluation} (hfields : Listed graph fields)
    (h : checkFields graph fuel fields evaluation = some after)
    (hmemo : ∀ field result, evaluation.memo.get? field = some result → result = true) :
    after.errors = evaluation.errors := by
  induction fields generalizing evaluation with
  | nil =>
    cases h
    rfl
  | cons p fields ih =>
    have hrest : Listed graph fields := fun q hq => hfields q (List.mem_cons_of_mem _ hq)
    rw [checkFields] at h
    split_ifs at h
    · have hdecided : ∀ field result,
          (evaluation.memoize p.1 true).memo.get? field = some result → result = true := by
        intro field result hfield
        rw [CheckerEvaluation.memoize,HashMap.get?_insert] at hfield
        split_ifs at hfield
        · exact (Option.some.inj hfield).symm
        · exact hmemo field result hfield
      have herrors := ih hrest h hdecided
      exact herrors
    · obtain ⟨⟨result,between⟩,hsearch,hnext⟩ := Option.bind_eq_some_iff.mp h
      obtain ⟨_,herrors,hpath⟩ := isComplete_silent hgraph hsearch
        (HashMap.mem_of_get? (hfields p List.mem_cons_self)) (Finset.notMem_empty _)
        ⟨by simp,hmemo⟩
      exact (ih hrest hnext hpath.memo).trans herrors

end Fields

end ProvenanceSearch
end EventCore
