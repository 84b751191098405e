import EventCore.DeriveCommand
import EventCore.ModelChecker

/-! The derive macros of modeled components: what they register of each field, and the builders
whose types keep track of the fields that are set. -/
namespace EventCore
namespace ModelBuilders

inductive ModelComponentKind
  | input | command | event | state | readModel | effect | output
  deriving DecidableEq

def ModelComponentKind.role : ModelComponentKind → String
  | .input => "input"
  | .command => "command"
  | .event => "event"
  | .state => "state"
  | .readModel => "read_model"
  | .effect => "effect"
  | .output => "output"

/-- What stands behind a name in `#[model(..)]`. -/
inductive MetaValue
  | none
  | ident (name : String)
  | str (text : String)
  deriving DecidableEq

/-- `#[stream]`, which may wrongly have parameters, and `#[model(..)]` with its items. -/
inductive Attribute
  | stream (bare : Bool)
  | model (items : List (String × MetaValue))
  | other
  deriving DecidableEq

structure Field where
  ident : String
  ty : String
  attrs : List Attribute
  deriving DecidableEq

inductive Fields
  | named (fields : List Field)
  | unnamed (types : List String)
  | unit
  deriving DecidableEq

inductive Data
  | struct (fields : Fields)
  | enum (variants : List (String × Fields))
  | union
  deriving DecidableEq

structure DeriveInput where
  ident : String
  generic : Bool
  data : Data
  deriving DecidableEq

section Attributes

def hasModelMarker (field : Field) (expected : String) : Bool :=
  field.attrs.contains (.model [(expected,.none)])

/-- An item `origin` may have a name behind it, and any other item nothing, or the attribute
does not parse. -/
def originItem : String × MetaValue → Bool
  | (_,.none) => true
  | (name,.ident _) => name = "origin"
  | (_,.str _) => false

def hasModelOrigin (field : Field) : Bool :=
  hasModelMarker field "origin" || field.attrs.any fun
    | .model items => items.all originItem && items.any (·.1 = "origin")
    | _ => false

def isStateRootRecipe (field : Field) : Bool :=
  hasModelMarker field "default" || hasModelMarker field "absence" ||
    hasModelMarker field "constant"

/-- An item `assumption` has a text behind it, and any other item nothing. -/
def assumptionItem : String × MetaValue → Bool
  | (name,.none) => name ≠ "assumption"
  | (name,.str _) => name = "assumption"
  | (_,.ident _) => false

def assumptionOf : Attribute → Option String
  | .model items =>
    if items.all assumptionItem then
      (items.filterMap fun
        | (_,.str text) => some text
        | _ => none).getLast?
    else none
  | _ => none

def modelAssumptionName (field : Field) : Option String := field.attrs.findSome? assumptionOf

/-- An attribute with parameters is an error, which counts as no marker here. -/
def hasStreamMarker (field : Field) : Bool :=
  field.attrs.contains (.stream true) && !field.attrs.contains (.stream false)

end Attributes

section Expand

/-- `toUppercase` is that of the characters of the language. -/
def pascalCase (toUppercase : Char → List Char) (ident : String) : String :=
  String.ofList ((ident.toList.splitOn '_').flatMap fun
    | [] => []
    | first :: characters => toUppercase first ++ characters)

/-- A field of a builder; a raw value is one of the field's type. -/
structure BuilderField where
  ident : String
  ty : String
  stateIdent : String
  markerIdent : String
  acceptsRawValue : Bool
  deriving DecidableEq

inductive Component
  | struct (fields : List BuilderField) (streams : List String)
  | enum (constructors : List (String × Option String))

structure Expansion where
  component : Component
  registered : List ModelChecker.Descriptor

def isRoot (kind : ModelComponentKind) (field : Field) : Bool :=
  kind = .input && hasModelOrigin field || kind = .state && isStateRootRecipe field

def builderField (toUppercase : Char → List Char) (kind : ModelComponentKind) (field : Field) :
    BuilderField where
  ident := field.ident
  ty := field.ty
  stateIdent := pascalCase toUppercase field.ident ++ "State"
  markerIdent := pascalCase toUppercase field.ident ++ "Field"
  acceptsRawValue := kind = .input && hasModelOrigin field

def fieldDescriptor (location : String) (kind : ModelComponentKind) (owner field : String)
    (root : Bool) : ModelChecker.Descriptor :=
  .field ⟨kind.role,owner ++ "." ++ field,root,location⟩

def assumptionDescriptor (location owner : String) (field : Field) :
    Option ModelChecker.Descriptor :=
  (modelAssumptionName field).map fun name =>
    .assumption ⟨name,owner ++ "." ++ field.ident,location⟩

def payload : Fields → Option (Option String)
  | .unit => some none
  | .unnamed [type] => some (some type)
  | _ => none

def expandModeledEnum (location : String) (kind : ModelComponentKind) (ident : String)
    (constructors : List (String × Option String)) : Expansion where
  component := .enum constructors
  registered := (constructors.filter (·.2.isSome)).map fun c =>
    fieldDescriptor location kind ident c.1 false

def expandStruct (toUppercase : Char → List Char) (location : String) (kind : ModelComponentKind)
    (ident : String) (fields : List Field) : Except String Expansion :=
  let streams := if kind = .command then (fields.filter hasStreamMarker).map Field.ident else []
  if kind = .state ∧ ¬fields.all isStateRootRecipe then
    .error ("EventCore: #[derive(ModelState)] requires #[model(default)], #[model(absence)], or " ++
      "#[model(constant)] on every field")
  else if kind = .command ∧ streams = [] then
    .error "EventCore: #[derive(ModelCommand)] requires at least one #[stream] semantic stream field"
  else .ok
    { component := .struct (fields.map (builderField toUppercase kind)) streams
      registered := fields.map (fun field =>
          fieldDescriptor location kind ident field.ident (isRoot kind field)) ++
        fields.filterMap (assumptionDescriptor location ident) }

/-- An error by its text. -/
def expandModelComponent (toUppercase : Char → List Char) (location : String)
    (input : DeriveInput) (kind : ModelComponentKind) : Except String Expansion :=
  if input.generic then
    .error "EventCore: modeled component owners cannot be generic in the experimental API"
  else
    match input.data with
    | .struct (.named fields) => expandStruct toUppercase location kind input.ident fields
    | .struct _ => .error ("EventCore: modeled component builders require named fields; " ++
        "use a named payload struct for enum variants")
    | .enum variants =>
      if kind = .event ∨ kind = .effect then
        match variants.mapM fun v => (payload v.2).map (v.1,·) with
        | some constructors => .ok (expandModeledEnum location kind input.ident constructors)
        | none => .error ("EventCore: modeled enum variants must be unit variants or have one " ++
            "typed payload; use a named payload struct for multiple fields")
      else .error "EventCore: this modeled component derive requires a named struct"
    | .union => .error "EventCore: this modeled component derive requires a named struct"

end Expand

section Expanded

/-- An attribute with two items that have something behind them is neither. -/
example : hasModelOrigin ⟨"id","Id",[.model [("origin",.ident "user"),("assumption",.str "a")]]⟩ =
      false ∧
    modelAssumptionName ⟨"id","Id",[.model [("origin",.ident "user"),("assumption",.str "a")]]⟩ =
      none := by decide

theorem acceptsRawValue_eq_isRoot (toUppercase : Char → List Char) {kind : ModelComponentKind}
    (hkind : kind ≠ .state) (field : Field) :
    (builderField toUppercase kind field).acceptsRawValue = isRoot kind field := by
  simp [builderField,isRoot,hkind]

variable {toUppercase : Char → List Char} {location : String} {kind : ModelComponentKind}

theorem expandStruct_eq_ok {ident : String} {fields : List Field} {e : Expansion} :
    expandStruct toUppercase location kind ident fields = .ok e ↔
      (kind = .state → ∀ field ∈ fields, isStateRootRecipe field = true) ∧
      (kind = .command → ∃ field ∈ fields, hasStreamMarker field = true) ∧
      e = { component := .struct (fields.map (builderField toUppercase kind))
              (if kind = .command then (fields.filter hasStreamMarker).map Field.ident else [])
            registered := fields.map (fun field =>
                fieldDescriptor location kind ident field.ident (isRoot kind field)) ++
              fields.filterMap (assumptionDescriptor location ident) } := by
  have hstate : (kind = .state ∧ ¬fields.all isStateRootRecipe = true) ↔
      ¬(kind = .state → ∀ field ∈ fields, isStateRootRecipe field = true) := by
    rw [List.all_eq_true,Classical.not_imp]
  have hcommand : (kind = .command ∧
      (if kind = .command then (fields.filter hasStreamMarker).map Field.ident else []) = []) ↔
      ¬(kind = .command → ∃ field ∈ fields, hasStreamMarker field = true) := by
    rw [Classical.not_imp]
    refine and_congr_right fun hkind => ?_
    rw [if_pos hkind,List.map_eq_nil_iff,List.filter_eq_nil_iff]
    simp
  rw [expandStruct]
  simp only [hstate,hcommand]
  by_cases hrecipes : kind = .state → ∀ field ∈ fields, isStateRootRecipe field = true
  · rw [if_neg (not_not_intro hrecipes),and_iff_right hrecipes]
    by_cases hstreams : kind = .command → ∃ field ∈ fields, hasStreamMarker field = true
    · rw [if_neg (not_not_intro hstreams),and_iff_right hstreams,Except.ok.injEq]
      exact eq_comm
    · rw [if_pos hstreams]
      simp [hstreams]
  · rw [if_pos hrecipes]
    simp [hrecipes]

@[mk_iff accepted_iff]
inductive Accepted (kind : ModelComponentKind) : Data → Prop
  | struct {fields : List Field}
      (hrecipes : kind = .state → ∀ field ∈ fields, isStateRootRecipe field = true)
      (hstreams : kind = .command → ∃ field ∈ fields, hasStreamMarker field = true) :
      Accepted kind (.struct (.named fields))
  | enum {variants : List (String × Fields)} (hkind : kind = .event ∨ kind = .effect)
      (hpayloads : ∀ v ∈ variants, v.2 = .unit ∨ ∃ ty, v.2 = .unnamed [ty]) :
      Accepted kind (.enum variants)

theorem payload_isSome (fields : Fields) :
    (payload fields).isSome ↔ fields = .unit ∨ ∃ ty, fields = .unnamed [ty] := by
  cases fields with
  | unit => simp [payload]
  | named fields => simp [payload]
  | unnamed types =>
    match types with
    | [] => simp [payload]
    | [ty] => simp [payload]
    | _ :: _ :: _ => simp [payload]

theorem mapM_isSome {α β : Type} {f : α → Option β} (l : List α) :
    (l.mapM f).isSome ↔ ∀ a ∈ l, (f a).isSome := by
  induction l with
  | nil => simp
  | cons a l ih =>
    rw [List.forall_mem_cons,← ih,List.mapM_cons]
    cases f a with
    | none => simp
    | some b => cases l.mapM f <;> simp

theorem expandModelComponent_isOk (input : DeriveInput) :
    (∃ e, expandModelComponent toUppercase location input kind = .ok e) ↔
      input.generic = false ∧ Accepted kind input.data := by
  unfold expandModelComponent
  by_cases hgeneric : input.generic = true
  · simp [hgeneric]
  rw [if_neg hgeneric,and_iff_right (Bool.eq_false_of_not_eq_true hgeneric)]
  cases hdata : input.data with
  | struct shape =>
    cases shape with
    | named fields =>
      simp only [expandStruct_eq_ok]
      constructor
      · rintro ⟨e,hrecipes,hstreams,-⟩
        exact .struct hrecipes hstreams
      · rintro (⟨hrecipes,hstreams⟩ | _)
        exact ⟨_,hrecipes,hstreams,rfl⟩
    | unnamed types => simp [accepted_iff]
    | unit => simp [accepted_iff]
  | enum variants =>
    have hpayloads := mapM_isSome (f := fun v : String × Fields => (payload v.2).map (v.1,·)) variants
    simp only [Option.isSome_map,payload_isSome] at hpayloads
    by_cases hkind : kind = .event ∨ kind = .effect
    · simp only [if_pos hkind]
      constructor
      · rintro ⟨e,he⟩
        refine .enum hkind (hpayloads.mp ?_)
        split at he
        · next constructors hmapM => rw [hmapM]; rfl
        · cases he
      · rintro (_ | ⟨-,hall⟩)
        obtain ⟨constructors,hmapM⟩ := Option.isSome_iff_exists.mp (hpayloads.mpr hall)
        rw [hmapM]
        exact ⟨_,rfl⟩
    · simp only [if_neg hkind]
      simp [accepted_iff,hkind]
  | union => simp [accepted_iff]

theorem expandModelComponent_struct {input : DeriveInput} {e : Expansion}
    {fields : List BuilderField} {streams : List String}
    (h : expandModelComponent toUppercase location input kind = .ok e)
    (hcomponent : e.component = .struct fields streams) :
    ∃ declared, input.data = .struct (.named declared) ∧
      expandStruct toUppercase location kind input.ident declared = .ok e := by
  have haccepted := (expandModelComponent_isOk input).mp ⟨e,h⟩
  unfold expandModelComponent at h
  rw [haccepted.1,if_neg Bool.false_ne_true] at h
  cases hdata : input.data with
  | struct shape =>
    cases shape with
    | named declared =>
      rw [hdata] at h
      exact ⟨declared,rfl,h⟩
    | unnamed types => simp [hdata] at h
    | unit => simp [hdata] at h
  | enum variants =>
    rw [hdata] at h
    simp only at h
    split_ifs at h
    split at h
    · rw [← Except.ok.inj h] at hcomponent
      simp [expandModeledEnum] at hcomponent
    · cases h
  | union => simp [hdata] at h

/-- A field of the builder is one that is declared, and takes a raw value if its origin is the
input. -/
def BuilderField.Builds (kind : ModelComponentKind) (field : BuilderField) (declared : Field) :
    Prop :=
  field.ident = declared.ident ∧ field.ty = declared.ty ∧
    (field.acceptsRawValue = true ↔ kind = .input ∧ hasModelOrigin declared = true)

theorem builderField_builds (toUppercase : Char → List Char) (kind : ModelComponentKind)
    (field : Field) : (builderField toUppercase kind field).Builds kind field := by
  simp [BuilderField.Builds,builderField]

def deposit : DeriveInput := ⟨"Deposit",false,.struct
  (.named [⟨"account_id","AccountId",[.stream true]⟩,⟨"amount","Money",[]⟩])⟩

end Expanded

section Builders

variable {V : Type}

/-- What is passed to a setter: a value of a type, or a `FieldValue` of a marker. -/
inductive Argument (V : Type)
  | raw (ty : String) (value : V)
  | fieldValue (marker : String) (value : V)

def Argument.value : Argument V → V
  | .raw _ value => value
  | .fieldValue _ value => value

/-- Only a `FieldValue` of the field's own marker converts into one. -/
def BuilderField.accepts (field : BuilderField) : Argument V → Bool
  | .raw ty _ => field.acceptsRawValue && ty = field.ty
  | .fieldValue marker _ => !field.acceptsRawValue && marker = field.markerIdent

/-- A block of the generated code, on a builder whose type arguments are `Unset`, `Set<..>` or a
parameter of the block; it has the setter of a field, or `build`. -/
structure Impl where
  method : String
  header : List (Option Bool)
  field : Option BuilderField

def setter (fields : List BuilderField) (field : BuilderField) : Impl where
  method := field.ident
  header := fields.map fun other => if other.ident = field.ident then some false else none
  field := some field

def buildImpl (fields : List BuilderField) : Impl where
  method := "build"
  header := fields.map fun _ => some true
  field := none

def impls (fields : List BuilderField) : List Impl :=
  fields.map (setter fields) ++ [buildImpl fields]

def Impl.fits (impl : Impl) (slots : List (Option V)) : Bool :=
  (impl.header.zip slots).all fun p => p.1.all (· = p.2.isSome)

def resolve (fields : List BuilderField) (slots : List (Option V)) (method : String) : List Impl :=
  (impls fields).filter fun impl => impl.method = method && impl.fits slots

def set (fields : List BuilderField) (slots : List (Option V)) (call : String × Argument V) :
    Option (List (Option V)) :=
  match (resolve fields slots call.1).map Impl.field with
  | [some field] =>
    if field.accepts call.2 then
      some (fields.zipWith (fun other slot =>
        if other.ident = field.ident then some call.2.value else slot) slots)
    else none
  | _ => none

/-- The last call, if it compiles, and the record that it returns. -/
def build (fields : List BuilderField) (slots : List (Option V)) : Option (List V) :=
  match (resolve fields slots "build").map Impl.field with
  | [none] => slots.mapM id
  | _ => none

/-- `model_builder()`, setters, and `build()`. -/
def chain (fields : List BuilderField) (calls : List (String × Argument V)) : Option (List V) :=
  (calls.foldlM (set fields) (fields.map fun _ => none)).bind (build fields)

variable {fields : List BuilderField}

/-- The slots when a field is set exactly where `given` has a value for it. -/
def slotsOf (fields : List BuilderField) (given : String → Option V) : List (Option V) :=
  fields.map fun field => given field.ident

theorem setter_fits (given : String → Option V) {field : BuilderField} (hfield : field ∈ fields) :
    (setter fields field).fits (slotsOf fields given) = (given field.ident).isNone := by
  rw [Bool.eq_iff_iff]
  simp only [Impl.fits,setter,slotsOf,List.zip_map',List.all_map,List.all_eq_true,Function.comp]
  constructor
  · intro h
    simpa using h field hfield
  · intro h other _
    by_cases heq : other.ident = field.ident
    · simp [heq,Option.isNone_iff_eq_none.mp h]
    · simp [heq]

theorem buildImpl_fits (given : String → Option V) :
    (buildImpl fields).fits (slotsOf fields given) =
      fields.all fun field => (given field.ident).isSome := by
  simp only [Impl.fits,buildImpl,slotsOf,List.zip_map',List.all_map,Function.comp_def]
  simp

/-- A method is the setter of a field that is not set, or `build` when all are. -/
theorem resolve_slotsOf (given : String → Option V) (method : String) :
    (resolve fields (slotsOf fields given) method).map Impl.field =
      (fields.filter fun field => field.ident = method && (given method).isNone).map some ++
        if method = "build" ∧ ∀ field ∈ fields, (given field.ident).isSome then [none] else [] := by
  have hsetters : (fields.map (setter fields)).filter (fun impl => impl.method = method &&
      impl.fits (slotsOf fields given)) = (fields.filter fun field => field.ident = method &&
        (given method).isNone).map (setter fields) := by
    rw [List.filter_map]
    congr 1
    refine List.filter_congr fun field hfield => ?_
    simp only [Function.comp,setter_fits given hfield]
    by_cases hmethod : field.ident = method
    · simp [setter,hmethod]
    · simp [setter,hmethod]
  rw [resolve,impls,List.filter_append,List.map_append,hsetters,List.map_map]
  congr 1
  have hfits : (decide ((buildImpl fields).method = method) &&
      (buildImpl fields).fits (slotsOf fields given)) =
      decide (method = "build" ∧ ∀ field ∈ fields, (given field.ident).isSome) := by
    rw [buildImpl_fits,Bool.eq_iff_iff]
    simp only [buildImpl,Bool.and_eq_true,decide_eq_true_eq,List.all_eq_true]
    exact and_congr_left' (decide_eq_true_iff.trans eq_comm)
  rw [List.filter_singleton,hfits]
  by_cases hbuild : method = "build" ∧ ∀ field ∈ fields, (given field.ident).isSome
  · rw [if_pos hbuild,decide_eq_true hbuild]
    rfl
  · rw [if_neg hbuild,decide_eq_false hbuild]
    rfl

variable (hnodup : (fields.map BuilderField.ident).Nodup)

include hnodup in
theorem filter_ident {field : BuilderField} (hfield : field ∈ fields) :
    fields.filter (fun other => other.ident = field.ident) = [field] := by
  have hinj := List.inj_on_of_nodup_map hnodup
  have hcongr : fields.filter (fun other => other.ident = field.ident) =
      fields.filter (· == field) := by
    refine List.filter_congr fun other hother => ?_
    rw [Bool.eq_iff_iff,decide_eq_true_eq,beq_iff_eq]
    exact ⟨fun heq => hinj hother hfield heq,fun heq => heq ▸ rfl⟩
  rw [hcongr,List.filter_beq,List.count_eq_one_of_mem hnodup.of_map hfield]
  rfl

theorem slotsOf_update (given : String → Option V) (field : BuilderField) (value : V) :
    fields.zipWith (fun other slot => if other.ident = field.ident then some value else slot)
      (slotsOf fields given) = slotsOf fields (Function.update given field.ident (some value)) := by
  rw [slotsOf,slotsOf,List.zipWith_map_right,List.zipWith_self]
  simp only [Function.update_apply]

include hnodup in
theorem set_slotsOf (given : String → Option V) (call : String × Argument V)
    (slots : List (Option V)) :
    set fields (slotsOf fields given) call = some slots ↔
      (∃ field ∈ fields, field.ident = call.1 ∧ field.accepts call.2 = true) ∧ given call.1 = none ∧
        slots = slotsOf fields (Function.update given call.1 (some call.2.value)) := by
  unfold set
  rw [resolve_slotsOf]
  by_cases hopen : (∃ field ∈ fields, field.ident = call.1) ∧ given call.1 = none
  · obtain ⟨⟨field,hmem,hident⟩,hgiven⟩ := hopen
    have hunset : ¬(call.1 = "build" ∧ ∀ field ∈ fields, (given field.ident).isSome) := by
      intro hall
      have hset := hall.2 field hmem
      rw [hident,hgiven] at hset
      cases hset
    have honly : fields.filter (fun other => other.ident = call.1 && (given call.1).isNone) =
        [field] := by
      have hfilter := filter_ident hnodup hmem
      simpa [hgiven,hident] using hfilter
    have haccepts : (∃ other ∈ fields, other.ident = call.1 ∧ other.accepts call.2 = true) ↔
        field.accepts call.2 = true := by
      refine ⟨fun ⟨other,hother,heq,haccept⟩ => ?_,fun haccept => ⟨field,hmem,hident,haccept⟩⟩
      rwa [← List.inj_on_of_nodup_map hnodup hother hmem (heq.trans hident.symm)]
    rw [if_neg hunset,honly,haccepts,← hident,← slotsOf_update]
    rw [← hident] at hgiven
    simp only [List.map_cons,List.map_nil,List.append_nil,hgiven,true_and]
    by_cases haccept : field.accepts call.2 = true
    · rw [if_pos haccept,Option.some.injEq]
      exact ⟨fun h => ⟨haccept,h.symm⟩,fun h => h.2.symm⟩
    · rw [if_neg haccept]
      simp [haccept]
  · have hnone : fields.filter (fun other => other.ident = call.1 && (given call.1).isNone) =
        [] := by
      refine List.filter_eq_nil_iff.mpr fun field hfield hboth => hopen ?_
      simp only [Bool.and_eq_true,decide_eq_true_eq,Option.isNone_iff_eq_none] at hboth
      exact ⟨⟨field,hfield,hboth.1⟩,hboth.2⟩
    have hnot : ¬((∃ field ∈ fields, field.ident = call.1 ∧ field.accepts call.2 = true) ∧
        given call.1 = none ∧
          slots = slotsOf fields (Function.update given call.1 (some call.2.value))) := by
      rintro ⟨⟨field,hfield,hident,-⟩,hgiven,-⟩
      exact hopen ⟨⟨field,hfield,hident⟩,hgiven⟩
    rw [hnone,iff_false_right hnot]
    split_ifs <;> simp

def assign (given : String → Option V) : List (String × Argument V) → String → Option V
  | [] => given
  | call :: calls => assign (Function.update given call.1 (some call.2.value)) calls

theorem assign_of_notMem (given : String → Option V) {calls : List (String × Argument V)}
    {name : String} (h : name ∉ calls.map Prod.fst) : assign given calls name = given name := by
  induction calls generalizing given with
  | nil => rfl
  | cons call calls ih =>
    simp only [List.map_cons,List.mem_cons,not_or] at h
    rw [assign,ih _ h.2,Function.update_of_ne h.1]

theorem assign_of_mem (given : String → Option V) {calls : List (String × Argument V)}
    (hcalls : (calls.map Prod.fst).Nodup) {call : String × Argument V} (h : call ∈ calls) :
    assign given calls call.1 = some call.2.value := by
  induction calls generalizing given with
  | nil => cases h
  | cons first calls ih =>
    rw [List.map_cons,List.nodup_cons] at hcalls
    rcases List.mem_cons.mp h with rfl | h
    · rw [assign,assign_of_notMem _ hcalls.1,Function.update_self]
    · exact ih _ hcalls.2 h

theorem assign_eq_some {calls : List (String × Argument V)} (hcalls : (calls.map Prod.fst).Nodup)
    {name : String} {value : V} : assign (fun _ => none) calls name = some value ↔
      ∃ call ∈ calls, call.1 = name ∧ call.2.value = value := by
  constructor
  · intro h
    by_cases hname : name ∈ calls.map Prod.fst
    · obtain ⟨call,hcall,rfl⟩ := List.mem_map.mp hname
      rw [assign_of_mem _ hcalls hcall] at h
      exact ⟨call,hcall,rfl,Option.some.inj h⟩
    · rw [assign_of_notMem _ hname] at h
      cases h
  · rintro ⟨call,hcall,rfl,rfl⟩
    exact assign_of_mem _ hcalls hcall

theorem assign_isSome {calls : List (String × Argument V)} (hcalls : (calls.map Prod.fst).Nodup)
    {name : String} : (assign (fun _ => none) calls name).isSome ↔ name ∈ calls.map Prod.fst := by
  by_cases hname : name ∈ calls.map Prod.fst
  · obtain ⟨call,hcall,rfl⟩ := List.mem_map.mp hname
    simp [assign_of_mem _ hcalls hcall,hname]
  · simp [assign_of_notMem _ hname,hname]

include hnodup in
theorem foldlM_set (given : String → Option V) (calls : List (String × Argument V))
    (slots : List (Option V)) :
    calls.foldlM (set fields) (slotsOf fields given) = some slots ↔
      (∀ call ∈ calls, ∃ field ∈ fields, field.ident = call.1 ∧ field.accepts call.2 = true) ∧
        (calls.map Prod.fst).Nodup ∧ (∀ call ∈ calls, given call.1 = none) ∧
        slots = slotsOf fields (assign given calls) := by
  induction calls generalizing given with
  | nil =>
    exact ⟨fun h => ⟨by simp,by simp,by simp,(Option.some.inj h).symm⟩,
      fun h => congrArg some h.2.2.2.symm⟩
  | cons call calls ih =>
    rw [List.foldlM_cons,Option.bind_eq_bind,Option.bind_eq_some_iff]
    simp only [set_slotsOf hnodup,List.map_cons,List.nodup_cons,List.forall_mem_cons,assign]
    constructor
    · rintro ⟨_,⟨hfield,hgiven,rfl⟩,hrest⟩
      obtain ⟨hfields,hcalls,hothers,hslots⟩ := (ih _).mp hrest
      have hfresh : ∀ other ∈ calls, other.1 ≠ call.1 := by
        intro other hother heq
        have hnone := hothers other hother
        rw [heq,Function.update_self] at hnone
        cases hnone
      refine ⟨⟨hfield,hfields⟩,⟨?_,hcalls⟩,⟨hgiven,fun other hother => ?_⟩,hslots⟩
      · intro hmem
        obtain ⟨other,hother,heq⟩ := List.mem_map.mp hmem
        exact hfresh other hother heq
      · have hnone := hothers other hother
        rwa [Function.update_of_ne (hfresh other hother)] at hnone
    · rintro ⟨⟨hfield,hfields⟩,⟨hfresh,hcalls⟩,⟨hgiven,hothers⟩,hslots⟩
      refine ⟨_,⟨hfield,hgiven,rfl⟩,(ih _).mpr ⟨hfields,hcalls,fun other hother => ?_,hslots⟩⟩
      have hne : other.1 ≠ call.1 := by
        intro heq
        exact hfresh (List.mem_map.mpr ⟨other,hother,heq⟩)
      rw [Function.update_of_ne hne]
      exact hothers other hother

theorem mapM_id_eq_some {slots : List (Option V)} {record : List V} :
    slots.mapM id = some record ↔ slots = record.map some := by
  induction slots generalizing record with
  | nil => cases record <;> simp
  | cons slot slots ih =>
    rw [List.mapM_cons]
    cases slot with
    | none => cases record <;> simp
    | some value => cases record <;> simp [Option.bind_eq_some_iff,ih,and_comm]

/-- `build` compiles when every field is set. -/
theorem build_slotsOf (given : String → Option V) (record : List V) :
    build fields (slotsOf fields given) = some record ↔
      (∀ field ∈ fields, (given field.ident).isSome) ∧
        slotsOf fields given = record.map some := by
  unfold build
  rw [resolve_slotsOf]
  by_cases hall : ∀ field ∈ fields, (given field.ident).isSome
  · have hnone : fields.filter (fun field => field.ident = "build" && (given "build").isNone) =
        [] := by
      refine List.filter_eq_nil_iff.mpr fun field hfield hboth => ?_
      simp only [Bool.and_eq_true,decide_eq_true_eq] at hboth
      have hset := hall field hfield
      rw [hboth.1] at hset
      simp [Option.isNone_iff_eq_none.mp hboth.2] at hset
    rw [hnone,if_pos ⟨rfl,hall⟩]
    exact mapM_id_eq_some.trans (iff_and_self.mpr fun _ => hall)
  · rw [if_neg fun h => hall h.2,List.append_nil]
    refine ⟨fun h => ?_,fun h => absurd h.1 hall⟩
    split at h
    · next heq =>
      obtain ⟨field,_,hfield⟩ := List.mem_map.mp (heq ▸ List.mem_singleton_self _)
      cases hfield
    · cases h

theorem map_eq_map_some {α : Type} {f : α → Option V} {l : List α} {record : List V} :
    l.map f = record.map some ↔ List.Forall₂ (fun a value => f a = some value) l record := by
  induction l generalizing record with
  | nil => cases record <;> simp
  | cons a l ih => cases record <;> simp [ih]

/-- A chain of setters in any order compiles and builds a record exactly when it sets every field
once, a field that is open to raw values with one of its type, and any other with a `FieldValue`
of its own. The record has in each field what was set there. -/
theorem chain_exact {toUppercase : Char → List Char} {kind : ModelComponentKind}
    {declared : List Field}
    (hcompiles : ((declared.map (builderField toUppercase kind)).map
      BuilderField.stateIdent).Nodup)
    (calls : List (String × Argument V)) (record : List V) :
    chain (declared.map (builderField toUppercase kind)) calls = some record ↔
      (calls.map Prod.fst).Perm (declared.map Field.ident) ∧
        (∀ call ∈ calls, ∃ field ∈ declared, field.ident = call.1 ∧
          (builderField toUppercase kind field).accepts call.2 = true) ∧
        List.Forall₂ (fun field value => ∃ call ∈ calls, call.1 = field.ident ∧
          call.2.value = value) declared record := by
  set fields := declared.map (builderField toUppercase kind) with hfields
  have hidents : fields.map BuilderField.ident = declared.map Field.ident := by
    simp [hfields,builderField,Function.comp_def]
  have hnodup : (fields.map BuilderField.ident).Nodup := by
    have hstates : fields.map BuilderField.stateIdent = (fields.map BuilderField.ident).map
        fun ident => pascalCase toUppercase ident ++ "State" := by
      simp [hfields,builderField,Function.comp_def]
    rw [hstates] at hcompiles
    exact hcompiles.of_map
  have haccepted : (∀ call ∈ calls, ∃ field ∈ fields, field.ident = call.1 ∧
      field.accepts call.2 = true) ↔ ∀ call ∈ calls, ∃ field ∈ declared, field.ident = call.1 ∧
        (builderField toUppercase kind field).accepts call.2 = true := by
    simp [hfields,builderField]
  have hrecord : (calls.map Prod.fst).Nodup → (slotsOf fields (assign (fun _ => none) calls) =
      record.map some ↔ List.Forall₂ (fun field value => ∃ call ∈ calls, call.1 = field.ident ∧
        call.2.value = value) declared record) := by
    intro hcalls
    rw [slotsOf,hfields,List.map_map,map_eq_map_some]
    simp only [Function.comp,assign_eq_some hcalls,builderField]
  have hstart : fields.map (fun _ => (none : Option V)) = slotsOf fields fun _ => none := rfl
  rw [chain,hstart,Option.bind_eq_some_iff,← haccepted,← hidents]
  simp only [foldlM_set hnodup]
  constructor
  · rintro ⟨_,⟨haccept,hcalls,-,rfl⟩,hbuild⟩
    obtain ⟨hall,hslots⟩ := (build_slotsOf _ _).mp hbuild
    refine ⟨(List.perm_ext_iff_of_nodup hcalls hnodup).mpr fun name => ⟨fun hname => ?_,?_⟩,
      haccept,(hrecord hcalls).mp hslots⟩
    · obtain ⟨call,hcall,rfl⟩ := List.mem_map.mp hname
      obtain ⟨field,hfield,hident,-⟩ := haccept call hcall
      exact List.mem_map.mpr ⟨field,hfield,hident⟩
    · intro hname
      obtain ⟨field,hfield,rfl⟩ := List.mem_map.mp hname
      exact (assign_isSome hcalls).mp (hall field hfield)
  · rintro ⟨hperm,haccept,hset⟩
    have hcalls := hperm.nodup_iff.mpr hnodup
    refine ⟨_,⟨haccept,hcalls,fun _ _ => trivial,rfl⟩,(build_slotsOf _ _).mpr ⟨fun field hfield => ?_,
      (hrecord hcalls).mpr hset⟩⟩
    exact (assign_isSome hcalls).mpr (hperm.mem_iff.mpr (List.mem_map_of_mem hfield))

end Builders

/-- An order that comes in with its customer; its total has to be mapped. -/
def placeOrder : List Field :=
  [⟨"customer_id","CustomerId",[.model [("origin",.none)]]⟩,⟨"total","Money",[]⟩]

theorem chain_exact_placeOrder :
    chain (placeOrder.map (builderField (fun c => [c.toUpper]) .input))
      [("total",.fieldValue "TotalField" 7),("customer_id",.raw "CustomerId" 3)] = some [3,7] := by
  refine (chain_exact ?_ _ _).mpr ⟨?_,?_,?_⟩
  · decide
  · decide
  · decide
  · simp [placeOrder,Argument.value]

end ModelBuilders
end EventCore
