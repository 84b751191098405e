import EventCore.CheckedModels

/-! The order of registration decides between descriptors of one stable id, and between nothing else. -/
namespace EventCore
namespace RegistrationOrder
open ModelChecker ProvenanceSearch CheckedModels

def Unordered (descriptors : List Descriptor) (options : CheckOptions) : Prop :=
  ∀ descriptors' : List Descriptor, descriptors'.Perm descriptors →
    checkDescriptors descriptors' options = checkDescriptors descriptors options

def Located (descriptors : List Descriptor) : Prop :=
  ∀ d ∈ descriptors, ∀ e ∈ descriptors, d.stableId = e.stableId → d.location = e.location

/-- Descriptors of one stable id are alike in all that the check reads of them. -/
structure Clashless (descriptors : List Descriptor) : Prop where
  located : Located descriptors
  root : ∀ d e, .field d ∈ descriptors → .field e ∈ descriptors → d.field = e.field →
    d.root = e.root
  mapping : ∀ d e, .mapping d ∈ descriptors → .mapping e ∈ descriptors → d.name = e.name →
    d.target = e.target → d = e

section Graphs

variable {graph graph' : CheckerGraph}

/-- The search sees no difference between the graphs: fields may differ in their roles. -/
structure Alike (graph graph' : CheckerGraph) : Prop where
  fields : ∀ x, (graph'.fields.get? x).map (fun d => (d.root,d.location)) =
    (graph.fields.get? x).map fun d => (d.root,d.location)
  mappings : ∀ x, graph'.mappings.get? x = graph.mappings.get? x
  assumptions : ∀ x, graph'.assumptions.get? x = graph.assumptions.get? x
  options : graph'.options = graph.options

theorem Alike.mem_fields (h : Alike graph graph') {x : String} :
    x ∈ graph'.fields ↔ x ∈ graph.fields := by
  have hsome := congrArg Option.isSome (h.fields x)
  rw [Option.isSome_map,Option.isSome_map] at hsome
  rw [← HashMap.get?_isSome_iff,← HashMap.get?_isSome_iff,hsome]

theorem Alike.isRoot (h : Alike graph graph') (x : String) : graph'.isRoot x = graph.isRoot x := by
  have hroot : ∀ d : Option Field, d.any Field.root =
      (d.map fun d => (d.root,d.location)).any Prod.fst := by
    rintro (_ | d) <;> rfl
  rw [CheckerGraph.isRoot,CheckerGraph.isRoot,hroot,h.fields,← hroot]

theorem Alike.location (h : Alike graph graph') (x : String) :
    (graph'.fields.get? x).map Field.location = (graph.fields.get? x).map Field.location := by
  have hlocation : ∀ d : Option Field, d.map Field.location =
      (d.map fun d => (d.root,d.location)).map Prod.snd := by
    rintro (_ | d) <;> rfl
  rw [hlocation,h.fields,← hlocation]

theorem Alike.accepts (h : Alike graph graph') : graph'.accepts = graph.accepts := by
  funext boundary
  rw [CheckerGraph.accepts,CheckerGraph.accepts,h.options]

theorem Alike.hasNonTemporalSeed (h : Alike graph graph') (x : String) :
    graph'.hasNonTemporalSeed x = graph.hasNonTemporalSeed x := by
  rw [CheckerGraph.hasNonTemporalSeed,CheckerGraph.hasNonTemporalSeed,h.isRoot,h.mappings]

theorem Alike.checkInput (h : Alike graph graph')
    (search : String → CheckerEvaluation → Option (Bool × CheckerEvaluation)) :
    checkInput graph' search = checkInput graph search := by
  funext state input
  simp only [ModelChecker.checkInput,h.mem_fields,h.hasNonTemporalSeed]

theorem Alike.isComplete (h : Alike graph graph') (fuel : ℕ) :
    isComplete graph' fuel = isComplete graph fuel := by
  induction fuel with
  | zero => rfl
  | succ fuel ih =>
    funext field evaluation
    simp only [ModelChecker.isComplete,h.isRoot,h.location,h.accepts,h.assumptions,h.mappings,
      h.checkInput,ih]

theorem Alike.checkFields (h : Alike graph graph') {fuel : ℕ} {fields fields' : List (String × Field)}
    (hfields : fields'.map (fun p => (p.1,p.2.root)) = fields.map fun p => (p.1,p.2.root))
    (evaluation : CheckerEvaluation) :
    checkFields graph' fuel fields' evaluation = checkFields graph fuel fields evaluation := by
  induction fields generalizing fields' evaluation with
  | nil =>
    obtain rfl := List.map_eq_nil_iff.mp hfields
    rfl
  | cons p fields ih =>
    obtain ⟨p',rest,rfl,hp,hrest⟩ := List.map_eq_cons_iff.mp hfields
    obtain ⟨hlabel,hroot⟩ := Prod.mk.inj hp
    rw [ModelChecker.checkFields,ModelChecker.checkFields,hlabel,hroot,h.isComplete]
    split_ifs
    · exact ih hrest _
    · exact Option.bind_congr fun r _ => ih hrest r.2

end Graphs

section Sorting

theorem pairwise_iter {V : Type} (m : HashMap String V) :
    (iter m).Pairwise fun p q => p.1 < q.1 := by
  refine Grouping.pairwise_lt_sortBy ?_
  rw [List.map_map]
  exact m.nodupKeys

/-- A sorted map is gone through by its keys, in whatever order it was filled. -/
theorem map_iter_eq {V W : Type} {m m' : HashMap String V} (f : V → W)
    (h : ∀ x, (m'.get? x).map f = (m.get? x).map f) :
    (iter m').map (fun p => (p.1,f p.2)) = (iter m).map fun p => (p.1,f p.2) := by
  have hsorted : ∀ m : HashMap String V,
      ((iter m).map fun p => (p.1,f p.2)).Pairwise fun p q => p.1 < q.1 :=
    fun m => List.pairwise_map.mpr (pairwise_iter m)
  have hmem : ∀ (m : HashMap String V) (p : String × W),
      p ∈ (iter m).map (fun p => (p.1,f p.2)) ↔ (m.get? p.1).map f = some p.2 := by
    rintro m ⟨x,w⟩
    rw [List.mem_map,Option.map_eq_some_iff]
    constructor
    · rintro ⟨⟨x,v⟩,hv,he⟩
      cases he
      exact ⟨v,mem_iter.mp hv,rfl⟩
    · rintro ⟨v,hv,hw⟩
      exact ⟨(x,v),mem_iter.mpr hv,congrArg (Prod.mk x) hw⟩
  have hirrefl : Std.Irrefl fun p q : String × W => p.1 < q.1 := ⟨fun p => lt_irrefl p.1⟩
  exact (hsorted m').eq_of_mem_iff (hsorted m) fun p => by rw [hmem,hmem,h]

theorem iter_eq {V : Type} {m m' : HashMap String V} (h : ∀ x, m'.get? x = m.get? x) :
    iter m' = iter m := by
  have hmap : (iter m').map (fun p => (p.1,id p.2)) = (iter m).map fun p => (p.1,id p.2) :=
    map_iter_eq id fun x => congrArg (Option.map id) (h x)
  simpa using hmap

theorem unknownTargets_eq {registry registry' : Registry} {options : CheckOptions}
    (h : Alike (registry.graph options) (registry'.graph options)) :
    registry'.unknownTargets = registry.unknownTargets := by
  have hmem : ∀ x, x ∈ registry'.fields ↔ x ∈ registry.fields := fun _ => h.mem_fields
  have hmappings : iter registry'.mappings = iter registry.mappings := iter_eq h.mappings
  have hassumptions : iter registry'.assumptions = iter registry.assumptions := iter_eq h.assumptions
  simp only [Registry.unknownTargets,hmem,hmappings,hassumptions]

variable {descriptors descriptors' : List Descriptor}

theorem map_sorted_eq {α : Type} (hperm : descriptors'.Perm descriptors) (f : Descriptor → α)
    (hf : ∀ d ∈ descriptors, ∀ e ∈ descriptors, d.stableId = e.stableId → f d = f e) :
    (sorted descriptors').map f = (sorted descriptors).map f := by
  have hpair : (sorted descriptors').map (fun d => (d.stableId,f d)) =
      (sorted descriptors).map fun d => (d.stableId,f d) := by
    have hsorted : ∀ descriptors : List Descriptor,
        ((sorted descriptors).map fun d => (d.stableId,f d)).Pairwise fun p q => p.1 ≤ q.1 :=
      fun descriptors => List.pairwise_map.mpr (Grouping.pairwise_sortBy Descriptor.stableId _)
    refine List.Perm.eq_of_pairwise ?_ (hsorted descriptors') (hsorted descriptors) ?_
    · rintro _ _ hp hq hle hge
      obtain ⟨d,hd,rfl⟩ := List.mem_map.mp hp
      obtain ⟨e,he,rfl⟩ := List.mem_map.mp hq
      have hid : d.stableId = e.stableId := le_antisymm hle hge
      exact Prod.ext hid (hf d (hperm.mem_iff.mp (mem_sorted.mp hd)) e (mem_sorted.mp he) hid)
    · exact (((List.perm_insertionSort _ _).trans hperm).trans
        (List.perm_insertionSort _ _).symm).map _
  have hsnd := congrArg (List.map Prod.snd) hpair
  rw [List.map_map,List.map_map] at hsnd
  exact hsnd

theorem having_sorted_eq {α : Type} {kind : Descriptor → Option α} {key name : α → String}
    (hname : ∀ d a, kind d = some a → d.stableId = name a)
    (hperm : descriptors'.Perm descriptors) {x : String}
    (hext : ∀ a ∈ having kind key descriptors x, ∀ b ∈ having kind key descriptors x,
      name a = name b → a = b) :
    having kind key (sorted descriptors') x = having kind key (sorted descriptors) x := by
  have hsorted : ∀ descriptors : List Descriptor,
      (having kind key (sorted descriptors) x).Pairwise fun a b => name a ≤ name b := by
    intro descriptors
    refine List.Pairwise.filter _ (List.pairwise_filterMap.mpr ?_)
    refine (Grouping.pairwise_sortBy Descriptor.stableId _).imp fun hle a ha b hb => ?_
    rw [← hname _ a ha,← hname _ b hb]
    exact hle
  have hkept : (having kind key (sorted descriptors) x).Perm (having kind key descriptors x) :=
    ((List.perm_insertionSort _ _).filterMap _).filter _
  have hkept' : (having kind key (sorted descriptors') x).Perm (having kind key descriptors x) :=
    (((List.perm_insertionSort _ _).trans hperm).filterMap _).filter _
  refine List.Perm.eq_of_pairwise (fun a b ha hb hle hge => ?_) (hsorted descriptors')
    (hsorted descriptors) (hkept'.trans hkept.symm)
  exact hext a (hkept'.mem_iff.mp ha) b (hkept.mem_iff.mp hb) (le_antisymm hle hge)

theorem get?_sorted_eq {α : Type} {kind : Descriptor → Option α} {key name : α → String}
    {m m' : HashMap String (List α)}
    (hm : ∀ x, m.get? x = nonempty (having kind key (sorted descriptors) x))
    (hm' : ∀ x, m'.get? x = nonempty (having kind key (sorted descriptors') x))
    (hname : ∀ d a, kind d = some a → d.stableId = name a)
    (hperm : descriptors'.Perm descriptors) {x : String}
    (hext : ∀ a ∈ having kind key descriptors x, ∀ b ∈ having kind key descriptors x,
      name a = name b → a = b) : m'.get? x = m.get? x := by
  rw [hm,hm',having_sorted_eq hname hperm hext]

theorem map_getLast?_eq {α β : Type} {l l' : List α} (f : α → β) (hmem : ∀ a, a ∈ l' ↔ a ∈ l)
    (hf : ∀ a ∈ l, ∀ b ∈ l, f a = f b) : l'.getLast?.map f = l.getLast?.map f := by
  rcases eq_or_ne l [] with rfl | hne
  · have hnone : l' = [] :=
      List.eq_nil_iff_forall_not_mem.mpr fun a ha => List.not_mem_nil ((hmem a).mp ha)
    rw [hnone]
  · obtain ⟨a,ha⟩ := List.exists_mem_of_ne_nil l hne
    have hne' := List.ne_nil_of_mem ((hmem a).mpr ha)
    rw [List.getLast?_eq_some_getLast hne,List.getLast?_eq_some_getLast hne']
    exact congrArg some
      (hf _ ((hmem _).mp (List.getLast_mem hne')) _ (List.getLast_mem hne))

theorem registryOf_errors_eq
    (h : descriptors'.map (fun d => (d.stableId,d.location)) =
      descriptors.map fun d => (d.stableId,d.location)) :
    (registryOf descriptors').errors = (registryOf descriptors).errors := by
  induction descriptors using List.reverseRecOn generalizing descriptors' with
  | nil =>
    obtain rfl := List.map_eq_nil_iff.mp h
    rfl
  | append_singleton descriptors d ih =>
    rw [List.map_append] at h
    obtain ⟨before,last,rfl,hbefore,hlast⟩ := List.map_eq_append_iff.mp h
    obtain ⟨e,rfl,he⟩ := List.map_eq_singleton_iff.mp hlast
    obtain ⟨hid,hlocation⟩ := Prod.mk.inj he
    have hids : before.map Descriptor.stableId = descriptors.map Descriptor.stableId := by
      have hfst := congrArg (List.map Prod.fst) hbefore
      rw [List.map_map,List.map_map] at hfst
      exact hfst
    rw [registryOf_errors_concat,registryOf_errors_concat,ih hbefore,hids,duplicate,duplicate,hid,
      hlocation]

end Sorting

section Unclashing

variable {descriptors descriptors' : List Descriptor} {options : CheckOptions}

theorem alike_of_clashless (h : Clashless descriptors) (hperm : descriptors'.Perm descriptors) :
    Alike (graphOf descriptors options) (graphOf descriptors' options) where
  fields x := by
    change ((registryOf (sorted descriptors')).fields.get? x).map _ =
      ((registryOf (sorted descriptors)).fields.get? x).map _
    rw [(registers_registryOf _).fields,(registers_registryOf _).fields]
    refine map_getLast?_eq _ (fun d => ?_) fun d hd e he => ?_
    · rw [mem_fieldsAt,mem_fieldsAt,mem_sorted,mem_sorted,hperm.mem_iff]
    · obtain ⟨hd,hlabel⟩ := mem_fieldsAt.mp hd
      obtain ⟨he,hlabel'⟩ := mem_fieldsAt.mp he
      rw [mem_sorted] at hd he
      have hsame := hlabel.trans hlabel'.symm
      exact Prod.ext (h.root d e hd he hsame) (h.located _ hd _ he hsame)
  mappings x := by
    have hname : ∀ d a, asMapping d = some a → d.stableId = a.name := by
      rintro (d | d | d) a ha <;> cases ha
      rfl
    refine get?_sorted_eq (registers_registryOf _).mappings (registers_registryOf _).mappings hname
      hperm fun a ha b hb hab => ?_
    obtain ⟨ha,htarget⟩ := mem_mappingsTo.mp ha
    obtain ⟨hb,htarget'⟩ := mem_mappingsTo.mp hb
    exact h.mapping a b ha hb hab (htarget.trans htarget'.symm)
  assumptions x := by
    have hname : ∀ d a, asAssumption d = some a → d.stableId = a.name := by
      rintro (d | d | d) a ha <;> cases ha
      rfl
    refine get?_sorted_eq (registers_registryOf _).assumptions
      (registers_registryOf _).assumptions hname hperm fun a ha b hb hab => ?_
    obtain ⟨ha,htarget⟩ := mem_assumptionsOn.mp ha
    obtain ⟨hb,htarget'⟩ := mem_assumptionsOn.mp hb
    have hlocation : a.location = b.location := h.located _ ha _ hb hab
    rcases a with ⟨name,target,location⟩
    rcases b with ⟨name',target',location'⟩
    simp_all
  options := rfl

theorem unordered_of_clashless (h : Clashless descriptors) : Unordered descriptors options := by
  intro descriptors' hperm
  rcases eq_or_ne descriptors [] with rfl | hne
  · rw [hperm.eq_nil]
  have hne' : descriptors' ≠ [] := by
    rintro rfl
    exact hne hperm.symm.eq_nil
  obtain ⟨evaluation,hfields,he⟩ := exists_evaluation hne options
  obtain ⟨evaluation',hfields',he'⟩ := exists_evaluation hne' options
  have halike : Alike (graphOf descriptors options) (graphOf descriptors' options) :=
    alike_of_clashless h hperm
  have hstart : (registryOf (sorted descriptors')).evaluation =
      (registryOf (sorted descriptors)).evaluation := by
    have herrors : (registryOf (sorted descriptors')).errors =
        (registryOf (sorted descriptors)).errors :=
      registryOf_errors_eq (map_sorted_eq hperm _ fun d hd e he hid =>
        Prod.ext hid (h.located d hd e he hid))
    rw [Registry.evaluation,Registry.evaluation,herrors,unknownTargets_eq halike]
  have hlist : (iter (graphOf descriptors' options).fields).map (fun p => (p.1,p.2.root)) =
      (iter (graphOf descriptors options).fields).map fun p => (p.1,p.2.root) := by
    refine map_iter_eq Field.root fun x => ?_
    have hroot := congrArg (Option.map Prod.fst) (halike.fields x)
    rw [Option.map_map,Option.map_map] at hroot
    exact hroot
  rw [hperm.length_eq,hstart,halike.checkFields hlist,hfields] at hfields'
  obtain rfl := Option.some.inj hfields'
  rw [he,he']
  by_cases hunique : UniqueIds descriptors
  · have hsorted : sorted descriptors' = sorted descriptors := by
      have hmap := map_sorted_eq hperm id fun d hd e he hid =>
        List.inj_on_of_nodup_map hunique hd he hid
      rwa [List.map_id,List.map_id] at hmap
    rw [hsorted]
  · have herrors : evaluation.errors ≠ [] := by
      intro hnil
      have hbegin := List.prefix_nil.mp (hnil ▸ (checkFields_errors hfields).1)
      exact hunique (evaluation_errors_eq_nil.mp hbegin).1
    rw [verdict_eq_error herrors,verdict_eq_error herrors]

end Unclashing

section Duplicates

def IsDuplicate (x : String) (d : CheckDiagnostic) : Bool := d.code = "ECM002" ∧ d.subject = x

def errorsOf : Except CheckError CheckReport → List CheckDiagnostic
  | .ok _ => []
  | .error e => e.diagnostics

variable {graph : CheckerGraph} {x : String}

theorem report_duplicates {errors : List CheckDiagnostic} (evaluation : CheckerEvaluation)
    (h : ∀ d ∈ errors, d.code ≠ "ECM002") :
    (evaluation.report errors).errors.filter (IsDuplicate x) =
      evaluation.errors.filter (IsDuplicate x) := by
  have hnone : errors.filter (IsDuplicate x) = [] := by
    rw [List.filter_eq_nil_iff]
    intro d hd
    simp [IsDuplicate,h d hd]
  rw [CheckerEvaluation.report,List.filter_append,hnone,List.append_nil]

def Unduplicating (x : String) : Searches := fun _ evaluation _ after =>
  after.errors.filter (IsDuplicate x) = evaluation.errors.filter (IsDuplicate x)

theorem loop_duplicates {inputs : List Input} {complete result : Bool}
    {evaluation after : CheckerEvaluation}
    (h : Loop graph (Unduplicating x) inputs complete evaluation result after) :
    after.errors.filter (IsDuplicate x) = evaluation.errors.filter (IsDuplicate x) := by
  induction h with
  | done => rfl
  | unknown _ _ ih => rw [ih,report_duplicates _ (by simp [unknownSource,diagnosticWithTraceAt])]
  | ordinary _ _ _ _ ih => rw [ih,report_duplicates _ (by simp [ordinaryCycle,diagnostic])]
  | seeded _ _ _ _ _ ih => exact ih
  | unseeded _ _ _ _ _ ih => rw [ih,report_duplicates _ (by simp [noSeed,diagnostic])]
  | searched _ _ hsearch _ ih => exact ih.trans hsearch

theorem isComplete_duplicates {fuel : ℕ} {field : String} {result : Bool}
    {evaluation after : CheckerEvaluation}
    (h : isComplete graph fuel field evaluation = some (result,after)) :
    Unduplicating x field evaluation result after := by
  refine isComplete_induction (P := Unduplicating x) (fun hout => ?_) h
  cases hout with
  | known => rfl
  | root => rfl
  | revisited => exact report_duplicates _ (by simp [revisited,diagnosticWithTrace])
  | assumed => rfl
  | refused => exact report_duplicates (CheckerEvaluation.enter _ _) (by simp [notEnabled,diagnostic])
  | missing =>
    exact report_duplicates (CheckerEvaluation.enter _ _)
      (by simp [noProducer,diagnosticWithTraceAt])
  | produced _ _ _ _ _ hloop =>
    have hkept := loop_duplicates hloop
    exact hkept

theorem checkFields_duplicates {fuel : ℕ} {fields : List (String × Field)}
    {evaluation after : CheckerEvaluation}
    (h : checkFields graph fuel fields evaluation = some after) :
    after.errors.filter (IsDuplicate x) = evaluation.errors.filter (IsDuplicate x) := by
  induction fields generalizing evaluation with
  | nil =>
    obtain rfl := Option.some.inj h
    rfl
  | cons p fields ih =>
    rw [checkFields] at h
    split_ifs at h
    · have hrest := ih h
      exact hrest
    · obtain ⟨⟨result,between⟩,hsearch,hrest⟩ := Option.bind_eq_some_iff.mp h
      have hkept := isComplete_duplicates (x := x) hsearch
      exact (ih hrest).trans hkept

theorem unknownTargets_duplicates (registry : Registry) :
    registry.unknownTargets.filter (IsDuplicate x) = [] := by
  rw [List.filter_eq_nil_iff]
  intro d hd
  have hcode : d.code = "ECM005" := by
    rcases List.mem_append.mp hd with hd | hd
    · obtain ⟨entry,_,hd⟩ := List.mem_flatMap.mp hd
      split_ifs at hd
      · cases hd
      · obtain ⟨_,_,rfl⟩ := List.mem_map.mp hd
        rfl
    · obtain ⟨entry,_,hd⟩ := List.mem_flatMap.mp hd
      split_ifs at hd
      · cases hd
      · obtain ⟨_,_,rfl⟩ := List.mem_map.mp hd
        rfl
  simp [IsDuplicate,hcode]

variable {descriptors : List Descriptor} {options : CheckOptions}

theorem registryOf_duplicates (descriptors : List Descriptor) (x : String) :
    (registryOf descriptors).errors.filter (IsDuplicate x) =
      (descriptors.filter fun d => d.stableId = x).tail.map duplicate := by
  induction descriptors using List.reverseRecOn with
  | nil => rfl
  | append_singleton descriptors d ih =>
    rw [registryOf_errors_concat,List.filter_append,ih,List.filter_append]
    have hcode : IsDuplicate x (duplicate d) = decide (d.stableId = x) := by
      simp [IsDuplicate,duplicate,diagnosticAt]
    by_cases hid : d.stableId = x
    · cases hbefore : descriptors.filter fun d => d.stableId = x with
      | nil =>
        have hnew : d.stableId ∉ descriptors.map Descriptor.stableId := by
          intro hmem
          obtain ⟨e,he,hsame⟩ := List.mem_map.mp hmem
          have he' := List.filter_eq_nil_iff.mp hbefore e he
          simp [hsame,hid] at he'
        rw [if_neg hnew]
        simp [hid]
      | cons e others =>
        have he : e ∈ descriptors.filter fun d => d.stableId = x := by
          rw [hbefore]
          exact List.mem_cons_self
        obtain ⟨he,hsame⟩ := List.mem_filter.mp he
        have hold : d.stableId ∈ descriptors.map Descriptor.stableId :=
          List.mem_map.mpr ⟨e,he,by rw [hid]; simpa using hsame⟩
        rw [if_pos hold]
        simp [hcode,hid]
    · have hnone : (if d.stableId ∈ descriptors.map Descriptor.stableId then [duplicate d]
          else []).filter (IsDuplicate x) = [] := by
        split_ifs <;> simp [hcode,hid]
      rw [hnone]
      simp [hid]

theorem reported_duplicates (hne : descriptors ≠ []) (options : CheckOptions) (x : String) :
    ((errorsOf (checkDescriptors descriptors options)).filter (IsDuplicate x)).Perm
      (((sorted descriptors).filter fun d => d.stableId = x).tail.map duplicate) := by
  obtain ⟨evaluation,hfields,he⟩ := exists_evaluation hne options
  have herrors : errorsOf (verdict (registryOf (sorted descriptors)) evaluation) =
      sortDiagnostics evaluation.errors := by
    by_cases h : evaluation.errors = []
    · rw [verdict_eq_ok.mpr ⟨h,rfl⟩,h]
      rfl
    · rw [verdict_eq_error h]
      rfl
  have hsorted := (List.perm_insertionSort (fun left right : CheckDiagnostic =>
    left.code < right.code ∨ left.code = right.code ∧ left.subject ≤ right.subject)
    evaluation.errors).filter (IsDuplicate x)
  rw [he,herrors,← registryOf_duplicates]
  refine hsorted.trans (List.Perm.of_eq ?_)
  rw [checkFields_duplicates hfields,Registry.evaluation,List.filter_append,
    unknownTargets_duplicates,List.append_nil]

theorem filter_orderedInsert (d : Descriptor) (descriptors : List Descriptor) :
    (descriptors.orderedInsert (fun p q => p.stableId ≤ q.stableId) d).filter
        (fun e => e.stableId = d.stableId) =
      d :: descriptors.filter fun e => e.stableId = d.stableId := by
  induction descriptors with
  | nil => simp
  | cons e others ih =>
    rw [List.orderedInsert_cons]
    split_ifs with hle
    · simp
    · have hne : e.stableId ≠ d.stableId := fun h => hle h.ge
      rw [List.filter_cons_of_neg (by simpa using hne),ih,List.filter_cons_of_neg (by simpa using hne)]

theorem first_duplicates (h : Unordered descriptors options) {d : Descriptor}
    (hd : d ∈ descriptors) :
    (duplicate d :: (errorsOf (checkDescriptors descriptors options)).filter
        (IsDuplicate d.stableId)).Perm
      ((descriptors.filter fun e => e.stableId = d.stableId).map duplicate) := by
  have hperm := List.perm_cons_erase hd
  have hreported := reported_duplicates (List.cons_ne_nil d (descriptors.erase d)) options d.stableId
  have hsorted : sorted (d :: descriptors.erase d) = (sorted (descriptors.erase d)).orderedInsert
      (fun p q => p.stableId ≤ q.stableId) d := rfl
  rw [h _ hperm.symm,hsorted,filter_orderedInsert,List.tail_cons] at hreported
  have hall : (d :: (sorted (descriptors.erase d)).filter fun e => e.stableId = d.stableId).Perm
      (descriptors.filter fun e => e.stableId = d.stableId) := by
    have hkept := ((List.perm_insertionSort (fun p q : Descriptor => p.stableId ≤ q.stableId)
      (descriptors.erase d)).cons d).trans hperm.symm
    have hfilter := hkept.filter fun e => e.stableId = d.stableId
    rw [List.filter_cons_of_pos (by simp)] at hfilter
    exact hfilter
  exact (hreported.cons _).trans (hall.map duplicate)

theorem located_of_unordered (h : Unordered descriptors options) : Located descriptors := by
  intro d hd e he hid
  have hfirst := first_duplicates h hd
  have hother := first_duplicates h he
  rw [← hid] at hother
  have hsame := Multiset.coe_eq_coe.mpr (hfirst.trans hother.symm)
  rw [← Multiset.cons_coe,← Multiset.cons_coe,Multiset.cons_inj_left] at hsame
  exact Option.some.inj (congrArg CheckDiagnostic.location hsame)

end Duplicates

/-- Without clashes the order does not matter; it matters if descriptors of one stable id have
different locations. -/
theorem unordered_bounds (descriptors : List Descriptor) (options : CheckOptions) :
    (Clashless descriptors → Unordered descriptors options) ∧
      (Unordered descriptors options → Located descriptors) :=
  ⟨unordered_of_clashless,located_of_unordered⟩

section Deposits

def once : List Descriptor :=
  [.field ⟨"event","Deposited.amount",true,"src/deposit.rs:3"⟩,
    .field ⟨"read_model","Account.balance",false,"src/account.rs:5"⟩,
    .mapping ⟨"Sum",["Deposited.amount"],"Account.balance",[false],"src/account.rs:9"⟩]

theorem clashless_once : Clashless once where
  located := by unfold Located; decide +kernel
  root d e hd he h := by
    simp only [once,List.mem_cons,Descriptor.field.injEq,reduceCtorEq,List.not_mem_nil,
      or_false] at hd he
    rcases hd with rfl | rfl <;> rcases he with rfl | rfl
    · rfl
    · exact absurd h (by decide)
    · exact absurd h (by decide)
    · rfl
  mapping d e hd he _ _ := by
    simp only [once,List.mem_cons,Descriptor.mapping.injEq,reduceCtorEq,List.not_mem_nil,
      false_or,or_false] at hd he
    exact hd.trans he.symm

def twice : List Descriptor :=
  [.field ⟨"event","Deposited.amount",true,"src/deposit.rs:3"⟩,
    .field ⟨"event","Deposited.amount",true,"src/transfer.rs:8"⟩]

theorem unordered_bounds_deposit : Unordered once .default ∧ ¬ Unordered twice .default := by
  refine ⟨(unordered_bounds _ _).1 clashless_once,fun hunordered => ?_⟩
  have hlocated := (unordered_bounds _ _).2 hunordered
  revert hlocated
  unfold Located
  decide +kernel

/-- The second place is reported, whichever it is. -/
theorem twice_ordered :
    (twice.reverse.Perm twice ∧
      errorsOf (checkDescriptors twice .default) ≠
        errorsOf (checkDescriptors twice.reverse .default)) ∧
    ¬ ∀ (descriptors : List Descriptor) (options : CheckOptions),
      Unordered descriptors options := by
  have hdiffer : errorsOf (checkDescriptors twice .default) ≠
      errorsOf (checkDescriptors twice.reverse .default) := by decide +kernel
  refine ⟨⟨List.reverse_perm _,hdiffer⟩,fun hall => hdiffer ?_⟩
  rw [hall twice .default _ (List.reverse_perm _)]

end Deposits

end RegistrationOrder
end EventCore
