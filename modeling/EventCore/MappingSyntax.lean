import EventCore.ModelChecker

/-! The grammar of `mapping!`: from its tokens to a mapping and back, whatever paths and types the
parsing library reads. What the macro accepts are exactly the mappings of one canonical text. -/
namespace EventCore
namespace MappingSyntax

/-- The tokens of a text, with those punctuation marks joined that Rust joins. -/
inductive Token
  | ident (name : String)
  | colon
  | pathSep
  | fatArrow
  | dot
  | comma
  | semi
  | eq
  | paren (content : List Token)
  | other (text : String)

/-- What cannot be read is reported by the parsing library or by the macro itself. -/
inductive ParseError
  | syn
  | eventcore (message : String)
  deriving DecidableEq

structure MappingField (P : Type) where
  owner : P
  field : String
  previous : Bool
  deriving DecidableEq

inductive MappingTransform (P T : Type)
  | clone
  | copy
  | function (function : P)
  | fallible (function : P) (error : T)
  deriving DecidableEq

structure MappingDefinition (P T : Type) where
  name : String
  sources : List (MappingField P)
  target : MappingField P
  transform : MappingTransform P T
  deriving DecidableEq

/-- A parser of what begins a text, which also gives what is left of it. -/
abbrev Parser (A : Type) : Type := List Token → Except ParseError (A × List Token)

/-- What the macro takes from the parsing library: which words are identifiers, and the parsers of
paths, of types and of what stands behind commas. `P` and `T` are the paths and types that it
reads. -/
structure Syn (P T : Type) where
  isIdent : String → Bool
  parsePath : List Token → Option (P × List Token)
  printPath : P → List Token
  last : P → String
  parseType : List Token → Option (T × List Token)
  printType : T → List Token
  parseTerminated : Parser (MappingField P) → List Token → Except ParseError (List (MappingField P))
  isIdent_word : ∀ name ∈ ["using","error","previous","clone","copy"], isIdent name = true
  path_word : ∀ name, isIdent name = true → ∃ path, printPath path = [.ident name] ∧ last path = name
  parsePath_print : ∀ path rest (t : Token), t = .dot ∨ t = .comma ∨ t = .semi →
    parsePath (printPath path ++ t :: rest) = some (path,t :: rest)
  parsePath_lt : ∀ {ts path rest}, parsePath ts = some (path,rest) → rest.length < ts.length
  parsePath_try : ∀ {ts path rest}, parsePath ts = some (path,rest) →
    (printPath path).head? = some (.ident "try") → ts.head? = some (.ident "try")
  /-- No parentheses stand behind the first word of a path. -/
  printPath_paren : ∀ path ts name content rest,
    printPath path ++ .dot :: ts ≠ .ident name :: .paren content :: rest
  parseType_print : ∀ type rest,
    parseType (printType type ++ .semi :: rest) = some (type,.semi :: rest)
  /-- The comma behind the last one may be left out. -/
  parseTerminated_eq : ∀ parse : Parser (MappingField P),
    (∀ ts field rest, parse ts = .ok (field,rest) → rest.length < ts.length) → ∀ ts,
      parseTerminated parse ts =
        if ts.isEmpty then .ok []
        else
          match parse ts with
          | .error e => .error e
          | .ok (field,[]) => .ok [field]
          | .ok (field,.comma :: rest) => (parseTerminated parse rest).map (field :: ·)
          | .ok (_,_ :: _) => .error .syn

variable {P T : Type} (syn : Syn P T)

section Parse

def parseIdent : Parser String
  | .ident name :: ts => if syn.isIdent name then .ok (name,ts) else .error .syn
  | _ => .error .syn

def parsePath (ts : List Token) : Except ParseError (P × List Token) :=
  match syn.parsePath ts with
  | some r => .ok r
  | none => .error .syn

def parseOwned : Parser (MappingField P) := fun ts =>
  match parsePath syn ts with
  | .error e => .error e
  | .ok (owner,.dot :: ts) => (parseIdent syn ts).map fun r => (⟨owner,r.1,false⟩,r.2)
  | .ok _ => .error .syn

/-- A field, or `previous(..)` around one, any number of times. -/
def parseField : Parser (MappingField P)
  | .ident marker :: .paren content :: ts =>
    if syn.isIdent marker = false then parseOwned syn (.ident marker :: .paren content :: ts)
    else if marker ≠ "previous" then .error (.eventcore "EventCore: expected `previous(...)`")
    else
      match parseField content with
      | .error e => .error e
      | .ok (field,[]) => .ok ({ field with previous := true },ts)
      | .ok (_,_ :: _) => .error (.eventcore "EventCore: invalid previous field reference")
  | ts => parseOwned syn ts

def parseSources : Parser (List (MappingField P))
  | .paren content :: ts => (syn.parseTerminated (parseField syn) content).map (·,ts)
  | ts => (parseField syn ts).map fun r => ([r.1],r.2)

def parseFallible : Parser (MappingTransform P T) := fun ts =>
  match parsePath syn ts with
  | .error e => .error e
  | .ok (function,.comma :: ts) =>
    match parseIdent syn ts with
    | .error e => .error e
    | .ok (errorName,ts) =>
      if errorName ≠ "error" then
        .error (.eventcore "EventCore: expected `error = ErrorType`")
      else
        match ts with
        | .eq :: ts =>
          match syn.parseType ts with
          | some (error,ts) => .ok (.fallible function error,ts)
          | none => .error .syn
        | _ => .error .syn
  | .ok _ => .error .syn

/-- What a path behind `using` stands for. -/
def transformOf (path : P) : MappingTransform P T :=
  match syn.last path with
  | "clone" => .clone
  | "copy" => .copy
  | _ => .function path

def parseTransform : Parser (MappingTransform P T)
  | .ident "try" :: ts => parseFallible syn ts
  | ts => (parsePath syn ts).map fun r => (transformOf syn r.1,r.2)

/-- `MappingDefinition::parse`, and nothing behind it. -/
def parseDefinition (ts : List Token) : Except ParseError (MappingDefinition P T) :=
  match parseIdent syn ts with
  | .error e => .error e
  | .ok (name,.colon :: ts) =>
    match parseSources syn ts with
    | .error e => .error e
    | .ok (sources,.fatArrow :: ts) =>
      match parseField syn ts with
      | .error e => .error e
      | .ok (target,ts) =>
        match parseIdent syn ts with
        | .error e => .error e
        | .ok (word,ts) =>
          if word ≠ "using" then .error (.eventcore "EventCore: expected `using`")
          else
            match parseTransform syn ts with
            | .error e => .error e
            | .ok (transform,.semi :: ts) =>
              if sources.isEmpty then
                .error (.eventcore "EventCore: mappings require at least one source field")
              else if ts.isEmpty then .ok ⟨name,sources,target,transform⟩
              else .error .syn
            | .ok _ => .error .syn
    | .ok _ => .error .syn
  | .ok _ => .error .syn

end Parse

section Render

def renderOwned (field : MappingField P) : List Token :=
  syn.printPath field.owner ++ [.dot,.ident field.field]

def renderField (field : MappingField P) : List Token :=
  if field.previous then [.ident "previous",.paren (renderOwned syn field)]
  else renderOwned syn field

def renderSources : List (MappingField P) → List Token
  | [] => []
  | [field] => renderField syn field
  | field :: sources => renderField syn field ++ .comma :: renderSources sources

def renderTransform : MappingTransform P T → List Token
  | .clone => [.ident "clone"]
  | .copy => [.ident "copy"]
  | .function function => syn.printPath function
  | .fallible function error =>
    .ident "try" :: syn.printPath function ++ [.comma,.ident "error",.eq] ++ syn.printType error

/-- The canonical text of a mapping, with its sources in parentheses. -/
def render (mapping : MappingDefinition P T) : List Token :=
  [.ident mapping.name,.colon,.paren (renderSources syn mapping.sources),.fatArrow] ++
    renderField syn mapping.target ++
      .ident "using" :: renderTransform syn mapping.transform ++ [.semi]

end Render

section Accepted

variable {syn}

theorem map_eq_ok {ε α β : Type} {f : α → β} {x : Except ε α} {b : β} :
    x.map f = .ok b ↔ ∃ a, x = .ok a ∧ f a = b := by
  cases x <;> simp [Except.map]

variable (syn) in
def MappingField.WellFormed (field : MappingField P) : Prop := syn.isIdent field.field = true

variable (syn) in
/-- A function that is named like a keyword of the macro is read as that keyword. -/
def MappingTransform.WellFormed : MappingTransform P T → Prop
  | .function path => syn.last path ≠ "clone" ∧ syn.last path ≠ "copy" ∧
      (syn.printPath path).head? ≠ some (.ident "try")
  | _ => True

variable (syn) in
structure MappingDefinition.WellFormed (mapping : MappingDefinition P T) : Prop where
  name : syn.isIdent mapping.name = true
  nonempty : mapping.sources ≠ []
  sources : ∀ field ∈ mapping.sources, field.WellFormed syn
  target : mapping.target.WellFormed syn
  transform : mapping.transform.WellFormed syn

theorem parseIdent_ok {ts rest : List Token} {name : String}
    (h : parseIdent syn ts = .ok (name,rest)) :
    syn.isIdent name = true ∧ ts = .ident name :: rest := by
  unfold parseIdent at h
  split at h
  · split_ifs at h with hident
    cases h
    exact ⟨hident,rfl⟩
  · cases h

theorem parsePath_ok {ts rest : List Token} {path : P} :
    parsePath syn ts = .ok (path,rest) ↔ syn.parsePath ts = some (path,rest) := by
  unfold parsePath
  cases syn.parsePath ts <;> simp

theorem parseOwned_ok {ts rest : List Token} {field : MappingField P}
    (h : parseOwned syn ts = .ok (field,rest)) :
    field.WellFormed syn ∧ rest.length < ts.length := by
  unfold parseOwned at h
  split at h
  · cases h
  · next owner ts' howner =>
    obtain ⟨⟨name,ts''⟩,hr,heq⟩ := map_eq_ok.mp h
    obtain ⟨rfl,rfl⟩ := Prod.mk.inj heq
    obtain ⟨hname,rfl⟩ := parseIdent_ok hr
    have hlt := syn.parsePath_lt (parsePath_ok.mp howner)
    refine ⟨hname,?_⟩
    simp only [List.length_cons] at hlt ⊢
    omega
  · cases h

theorem parseField_ok {ts rest : List Token} {field : MappingField P}
    (h : parseField syn ts = .ok (field,rest)) :
    field.WellFormed syn ∧ rest.length < ts.length := by
  fun_induction parseField syn ts generalizing field rest with
  | case1 => exact parseOwned_ok h
  | case2 => cases h
  | case3 => cases h
  | case4 marker content ts _ _ field' hcontent ih =>
    cases h
    refine ⟨(ih hcontent).1,?_⟩
    simp only [List.length_cons]
    omega
  | case5 => cases h
  | case6 => exact parseOwned_ok h

variable (syn) in
theorem parseTerminated_eq (ts : List Token) : syn.parseTerminated (parseField syn) ts =
    if ts.isEmpty then .ok []
    else
      match parseField syn ts with
      | .error e => .error e
      | .ok (field,[]) => .ok [field]
      | .ok (field,.comma :: rest) =>
        (syn.parseTerminated (parseField syn) rest).map (field :: ·)
      | .ok (_,_ :: _) => .error .syn :=
  syn.parseTerminated_eq _ (fun _ _ _ h => (parseField_ok h).2) ts

theorem parseTerminated_ok {ts : List Token} {sources : List (MappingField P)}
    (h : syn.parseTerminated (parseField syn) ts = .ok sources) :
    ∀ field ∈ sources, field.WellFormed syn := by
  induction hlength : ts.length using Nat.strong_induction_on generalizing ts sources with
  | _ n ih =>
    subst hlength
    rw [parseTerminated_eq] at h
    split_ifs at h
    · cases h
      simp
    split at h
    · cases h
    · next field hfield =>
      cases h
      simpa using (parseField_ok hfield).1
    · next field rest hfield =>
      obtain ⟨fields,hfields,rfl⟩ := map_eq_ok.mp h
      obtain ⟨hwell,hlt⟩ := parseField_ok hfield
      rw [List.length_cons] at hlt
      exact List.forall_mem_cons.mpr ⟨hwell,ih _ (by omega) hfields rfl⟩
    · cases h

theorem parseSources_ok {ts rest : List Token} {sources : List (MappingField P)}
    (h : parseSources syn ts = .ok (sources,rest)) : ∀ field ∈ sources, field.WellFormed syn := by
  unfold parseSources at h
  split at h
  · obtain ⟨fields,hfields,heq⟩ := map_eq_ok.mp h
    cases heq
    exact parseTerminated_ok hfields
  · obtain ⟨⟨field,ts'⟩,hfield,heq⟩ := map_eq_ok.mp h
    cases heq
    simpa using (parseField_ok hfield).1

theorem parseFallible_ok {ts rest : List Token} {transform : MappingTransform P T}
    (h : parseFallible syn ts = .ok (transform,rest)) : transform.WellFormed syn := by
  unfold parseFallible at h
  split at h
  · cases h
  · split at h
    · cases h
    · split_ifs at h
      split at h
      · split at h
        · cases h
          trivial
        · cases h
      · cases h
  · cases h

theorem parseTransform_ok {ts rest : List Token} {transform : MappingTransform P T}
    (h : parseTransform syn ts = .ok (transform,rest)) : transform.WellFormed syn := by
  unfold parseTransform at h
  split at h
  · exact parseFallible_ok h
  · next hts =>
    obtain ⟨⟨function,ts'⟩,hfunction,heq⟩ := map_eq_ok.mp h
    obtain ⟨rfl,rfl⟩ := Prod.mk.inj heq
    unfold transformOf
    split
    · trivial
    · trivial
    · next hclone hcopy =>
      refine ⟨hclone,hcopy,fun htry => ?_⟩
      obtain ⟨ts'',rfl⟩ :=
        List.head?_eq_some_iff.mp (syn.parsePath_try (parsePath_ok.mp hfunction) htry)
      exact hts ts'' rfl

theorem parseDefinition_ok {ts : List Token} {mapping : MappingDefinition P T}
    (h : parseDefinition syn ts = .ok mapping) : mapping.WellFormed syn := by
  unfold parseDefinition at h
  split at h
  · cases h
  · next hname =>
    split at h
    · cases h
    · next hsources =>
      split at h
      · cases h
      · next htarget =>
        split at h
        · cases h
        · split at h
          · cases h
          · split at h
            · cases h
            · next htransform =>
              split at h
              · cases h
              · next hempty =>
                split at h
                · cases h
                  exact ⟨(parseIdent_ok hname).1,by simpa using hempty,parseSources_ok hsources,
                    (parseField_ok htarget).1,parseTransform_ok htransform⟩
                · cases h
            · cases h
    · cases h
  · cases h

end Accepted

section RoundTrip

variable {syn}

variable (syn) in
theorem parsePath_render (path : P) (ts : List Token) {t : Token}
    (ht : t = .dot ∨ t = .comma ∨ t = .semi) :
    parsePath syn (syn.printPath path ++ t :: ts) = .ok (path,t :: ts) :=
  parsePath_ok.mpr (syn.parsePath_print path ts t ht)

theorem parseOwned_render {field : MappingField P} (h : field.WellFormed syn) (ts : List Token) :
    parseOwned syn (renderOwned syn field ++ ts) = .ok ({ field with previous := false },ts) := by
  have howner := parsePath_render syn field.owner (.ident field.field :: ts) (.inl rfl)
  have hname : syn.isIdent field.field = true := h
  unfold parseOwned renderOwned
  rw [List.append_assoc,List.cons_append,List.cons_append,List.nil_append,howner]
  simp only [parseIdent,hname,if_true]
  rfl

theorem parseField_of_ne {ts : List Token}
    (h : ∀ marker content rest, ts ≠ .ident marker :: .paren content :: rest) :
    parseField syn ts = parseOwned syn ts := by
  unfold parseField
  split
  · exact absurd rfl (h _ _ _)
  · rfl

theorem parseField_renderOwned {field : MappingField P} (h : field.WellFormed syn)
    (ts : List Token) :
    parseField syn (renderOwned syn field ++ ts) = .ok ({ field with previous := false },ts) := by
  rw [parseField_of_ne fun marker content rest => ?_,parseOwned_render h]
  rw [renderOwned,List.append_assoc]
  exact syn.printPath_paren field.owner _ marker content rest

theorem parseField_render {field : MappingField P} (h : field.WellFormed syn) (ts : List Token) :
    parseField syn (renderField syn field ++ ts) = .ok (field,ts) := by
  obtain ⟨owner,name,previous⟩ := field
  cases previous with
  | false => exact parseField_renderOwned h ts
  | true =>
    have hcontent := parseField_renderOwned h []
    have hprevious := syn.isIdent_word "previous" (by simp)
    rw [List.append_nil] at hcontent
    simp only [renderField,if_true,List.cons_append,List.nil_append]
    rw [parseField]
    simp [hprevious,hcontent]

theorem renderField_ne_nil (field : MappingField P) : renderField syn field ≠ [] := by
  unfold renderField renderOwned
  split_ifs <;> simp

theorem parseTerminated_render {sources : List (MappingField P)}
    (h : ∀ field ∈ sources, field.WellFormed syn) :
    syn.parseTerminated (parseField syn) (renderSources syn sources) = .ok sources := by
  induction sources with
  | nil => simp [renderSources,parseTerminated_eq]
  | cons field sources ih =>
    obtain ⟨hfield,hsources⟩ := List.forall_mem_cons.mp h
    rw [parseTerminated_eq]
    cases sources with
    | nil =>
      have hparse := parseField_render hfield []
      rw [List.append_nil] at hparse
      rw [renderSources,if_neg (by simp [renderField_ne_nil]),hparse]
    | cons next sources =>
      have hparse := parseField_render hfield (.comma :: renderSources syn (next :: sources))
      have hrender : renderSources syn (field :: next :: sources) =
          renderField syn field ++ .comma :: renderSources syn (next :: sources) := rfl
      rw [hrender,if_neg (by simp),hparse]
      simp only [ih hsources]
      rfl

theorem parseTransform_render_path {path : P}
    (htry : (syn.printPath path).head? ≠ some (.ident "try")) (ts : List Token) :
    parseTransform syn (syn.printPath path ++ .semi :: ts) =
      .ok (transformOf syn path,.semi :: ts) := by
  have hparse := parsePath_render syn path ts (.inr (.inr rfl))
  unfold parseTransform
  split
  · next rest heq =>
    cases hprint : syn.printPath path with
    | nil => simp [hprint] at heq
    | cons t tail =>
      rw [hprint,List.cons_append,List.cons.injEq] at heq
      simp [hprint,heq.1] at htry
  · rw [hparse]
    rfl

/-- A word behind `using` is the path that consists of it. -/
theorem parseTransform_word {word : String} (hword : syn.isIdent word = true) (htry : word ≠ "try")
    (ts : List Token) : ∃ path, syn.last path = word ∧
      parseTransform syn (.ident word :: .semi :: ts) = .ok (transformOf syn path,.semi :: ts) := by
  obtain ⟨path,hprint,hlast⟩ := syn.path_word word hword
  have hne : (syn.printPath path).head? ≠ some (.ident "try") := by simpa [hprint] using htry
  have hparse := parseTransform_render_path hne ts
  rw [hprint] at hparse
  exact ⟨path,hlast,hparse⟩

theorem parseTransform_render {transform : MappingTransform P T} (h : transform.WellFormed syn)
    (ts : List Token) :
    parseTransform syn (renderTransform syn transform ++ .semi :: ts) =
      .ok (transform,.semi :: ts) := by
  cases transform with
  | clone =>
    obtain ⟨path,hlast,hparse⟩ :=
      parseTransform_word (syn.isIdent_word "clone" (by simp)) (by decide) ts
    exact hparse.trans (by simp [transformOf,hlast])
  | copy =>
    obtain ⟨path,hlast,hparse⟩ :=
      parseTransform_word (syn.isIdent_word "copy" (by simp)) (by decide) ts
    exact hparse.trans (by simp [transformOf,hlast])
  | function path =>
    obtain ⟨hclone,hcopy,htry⟩ := h
    have htransform : (transformOf syn path : MappingTransform P T) = .function path := by
      unfold transformOf
      split
      · next heq => exact absurd heq hclone
      · next heq => exact absurd heq hcopy
      · rfl
    rw [renderTransform,parseTransform_render_path htry,htransform]
  | fallible path error =>
    have herror := syn.isIdent_word "error" (by simp)
    have hparse := parsePath_render syn path
      (.ident "error" :: .eq :: (syn.printType error ++ .semi :: ts)) (.inr (.inl rfl))
    have htokens : renderTransform syn (.fallible path error) ++ .semi :: ts =
        .ident "try" :: (syn.printPath path ++
          .comma :: .ident "error" :: .eq :: (syn.printType error ++ .semi :: ts)) := by
      simp [renderTransform]
    rw [htokens,parseTransform,parseFallible,hparse]
    simp [parseIdent,herror,syn.parseType_print]

theorem parseDefinition_render {mapping : MappingDefinition P T} (h : mapping.WellFormed syn) :
    parseDefinition syn (render syn mapping) = .ok mapping := by
  have husing := syn.isIdent_word "using" (by simp)
  have hsources := parseTerminated_render h.sources
  have htarget := parseField_render h.target
    (.ident "using" :: (renderTransform syn mapping.transform ++ [.semi]))
  have htransform : parseTransform syn
      (renderTransform syn mapping.transform ++ [.semi]) = .ok (mapping.transform,[.semi]) :=
    parseTransform_render h.transform []
  have hname : parseIdent syn (render syn mapping) = .ok (mapping.name,.colon ::
      .paren (renderSources syn mapping.sources) :: .fatArrow :: (renderField syn mapping.target ++
        .ident "using" :: (renderTransform syn mapping.transform ++ [.semi]))) := by
    simp [render,parseIdent,h.name]
  rw [parseDefinition,hname]
  simp [parseSources,hsources,Except.map,htarget,parseIdent,husing,htransform,h.nonempty]

/-- The macro accepts some text for a mapping exactly when it accepts its canonical text, and
reads that text as the mapping it was made of. -/
theorem parseDefinition_exact (mapping : MappingDefinition P T) :
    ((∃ ts, parseDefinition syn ts = .ok mapping) ↔ mapping.WellFormed syn) ∧
      ((∃ ts, parseDefinition syn ts = .ok mapping) ↔
        parseDefinition syn (render syn mapping) = .ok mapping) := by
  have hwell : (∃ ts, parseDefinition syn ts = .ok mapping) ↔ mapping.WellFormed syn :=
    ⟨fun h => h.elim fun _ => parseDefinition_ok,fun h => ⟨_,parseDefinition_render h⟩⟩
  exact ⟨hwell,fun h => parseDefinition_render (hwell.mp h),fun h => ⟨_,h⟩⟩

end RoundTrip

section Expand

/-- The call `owner::getter(parameter)`. -/
structure Getter (P : Type) where
  owner : P
  field : String
  parameter : String
  deriving DecidableEq

/-- The generated code: a unit struct with `apply`, and the descriptor that is registered. -/
structure Expansion (P T : Type) where
  name : String
  parameters : List (String × P)
  transform : MappingTransform P T
  arguments : List (Getter P)
  target : MappingField P
  descriptor : ModelChecker.Mapping

def sourceIdents (sources : List (MappingField P)) : List String :=
  (List.range sources.length).map fun index => "source_" ++ toString index

-- The name under which the owner that a path stands for is declared.
variable (ownerName : P → String)

/-- What the owner's generated `__eventcore_model_field_` function returns. -/
def MappingField.label (field : MappingField P) : String :=
  ownerName field.owner ++ "." ++ field.field

def expansion (location : String) (definition : MappingDefinition P T) : Expansion P T where
  name := definition.name
  parameters := (sourceIdents definition.sources).zip (definition.sources.map (·.owner))
  transform := definition.transform
  arguments := (definition.sources.zip (sourceIdents definition.sources)).map fun p =>
    ⟨p.1.owner,p.1.field,p.2⟩
  target := definition.target
  descriptor := ⟨definition.name,definition.sources.map (·.label ownerName),
    definition.target.label ownerName,definition.sources.map (·.previous),location⟩

def expandMapping (location : String) (definition : MappingDefinition P T) :
    Except ParseError (Expansion P T) :=
  match definition.transform with
  | .clone | .copy =>
    if definition.sources.length = 1 then .ok (expansion ownerName location definition)
    else .error
      (.eventcore "EventCore: `using clone` and `using copy` require exactly one source field")
  | .function _ | .fallible .. => .ok (expansion ownerName location definition)

/-- `mapping!` -/
def mapping (location : String) (ts : List Token) : Except ParseError (Expansion P T) :=
  match parseDefinition syn ts with
  | .error e => .error e
  | .ok definition => expandMapping ownerName location definition

variable {syn ownerName}

theorem expandMapping_eq_ok {location : String} {definition : MappingDefinition P T}
    {e : Expansion P T} : expandMapping ownerName location definition = .ok e ↔
      (definition.transform = .clone ∨ definition.transform = .copy →
        definition.sources.length = 1) ∧ e = expansion ownerName location definition := by
  unfold expandMapping
  cases htransform : definition.transform with
  | clone => by_cases hone : definition.sources.length = 1 <;> simp [hone,eq_comm]
  | copy => by_cases hone : definition.sources.length = 1 <;> simp [hone,eq_comm]
  | function function => simp [eq_comm]
  | fallible function error => simp [eq_comm]

theorem sourceIdents_nodup (sources : List (MappingField P)) : (sourceIdents sources).Nodup := by
  refine List.nodup_range.map fun m n h => ?_
  have hdigits : Nat.toDigits 10 m = Nat.toDigits 10 n := by
    have h := congrArg String.toList h
    simp only [String.toList_append,List.append_cancel_left_eq] at h
    exact String.ofList_injective (String.toList_injective h)
  rw [← Nat.ofDigitChars_toDigits (n := m) (by decide) le_rfl,hdigits,
    Nat.ofDigitChars_toDigits (by decide) le_rfl]

/-- The generated code reads the fields that are registered as sources, under the labels that their
owners give them and marked as previous ones where the mapping says so, in this order and each from
the parameter of its owner's type; no two parameters have one name, and what is cloned or copied
is a single one. -/
theorem mapping_reads {location : String} {ts : List Token} {e : Expansion P T}
    (h : mapping syn ownerName location ts = .ok e) :
    ∃ definition, parseDefinition syn ts = .ok definition ∧ definition.sources ≠ [] ∧
      e.arguments.map (fun g => (g.owner,g.field)) =
        definition.sources.map (fun source => (source.owner,source.field)) ∧
      e.descriptor.sources =
        e.arguments.map (fun g => ownerName g.owner ++ "." ++ g.field) ∧
      e.descriptor.temporalSources = definition.sources.map (·.previous) ∧
      e.target = definition.target ∧
      e.descriptor.target = ownerName e.target.owner ++ "." ++ e.target.field ∧
      e.parameters = e.arguments.map (fun g => (g.parameter,g.owner)) ∧
      (e.parameters.map Prod.fst).Nodup ∧
      (e.transform = .clone ∨ e.transform = .copy → e.arguments.length = 1) := by
  unfold mapping at h
  split at h
  · cases h
  · next definition hparse =>
    obtain ⟨hone,rfl⟩ := expandMapping_eq_ok.mp h
    have hlength : (sourceIdents definition.sources).length = definition.sources.length := by
      simp [sourceIdents]
    have hfst : (definition.sources.zip (sourceIdents definition.sources)).map Prod.fst =
        definition.sources := List.map_fst_zip hlength.ge
    refine ⟨definition,hparse,(parseDefinition_ok hparse).nonempty,?_,?_,rfl,rfl,rfl,?_,?_,?_⟩
    · simp only [expansion,List.map_map]
      conv_rhs => rw [← hfst]
      simp [Function.comp_def]
    · simp only [expansion,List.map_map]
      conv_lhs => rw [← hfst]
      simp [MappingField.label,Function.comp_def]
    · refine List.ext_getElem (by simp [expansion,hlength]) fun n _ _ => ?_
      simp [expansion]
    · rw [expansion,List.map_fst_zip (by simp [hlength])]
      exact sourceIdents_nodup definition.sources
    · intro htransform
      simpa [expansion,hlength] using hone htransform

end Expand

section Reference

def isKeyword (name : String) : Bool :=
  name ∈ ["_","abstract","as","async","await","become","box","break","const","continue","crate",
    "do","dyn","else","enum","extern","false","final","fn","for","if","impl","in","let","loop",
    "macro","match","mod","move","mut","override","priv","pub","ref","return","Self","self",
    "static","struct","super","trait","true","try","type","typeof","unsafe","unsized","use",
    "virtual","where","while","yield"]

def isSegment (name : String) : Bool :=
  name ∈ ["super","self","Self","crate","try"] || !isKeyword name

/-- A path without generic arguments. -/
structure Path where
  leading : Bool
  first : String
  rest : List String
  segments : ∀ name ∈ first :: rest, isSegment name = true

namespace Path

def parseRest : List Token → List String × List Token
  | .pathSep :: .ident name :: ts => (name :: (parseRest ts).1,(parseRest ts).2)
  | ts => ([],ts)

def parseSegments (leading : Bool) : List Token → Option (Path × List Token)
  | .ident first :: ts =>
    if h : ∀ name ∈ first :: (parseRest ts).1, isSegment name = true then
      some (⟨leading,first,(parseRest ts).1,h⟩,(parseRest ts).2)
    else none
  | _ => none

def parse : List Token → Option (Path × List Token)
  | .pathSep :: ts => parseSegments true ts
  | ts => parseSegments false ts

def printRest (names : List String) : List Token :=
  names.flatMap fun name => [.pathSep,.ident name]

def print (path : Path) : List Token :=
  (if path.leading then [.pathSep] else []) ++ .ident path.first :: printRest path.rest

def last (path : Path) : String := (path.first :: path.rest).getLast (List.cons_ne_nil _ _)

theorem parseRest_printRest (names : List String) {t : Token} (ht : t ≠ .pathSep)
    (ts : List Token) : parseRest (printRest names ++ t :: ts) = (names,t :: ts) := by
  induction names with
  | nil =>
    change parseRest (t :: ts) = ([],t :: ts)
    cases t <;> first | exact absurd rfl ht | rfl
  | cons name names ih =>
    simp only [printRest,List.flatMap_cons,List.cons_append,List.nil_append] at ih ⊢
    rw [parseRest,ih]

theorem parse_print (path : Path) {t : Token} (ht : t ≠ .pathSep) (ts : List Token) :
    parse (path.print ++ t :: ts) = some (path,t :: ts) := by
  obtain ⟨leading,first,rest,hsegments⟩ := path
  have hparse : parseSegments leading (.ident first :: (printRest rest ++ t :: ts)) =
      some (⟨leading,first,rest,hsegments⟩,t :: ts) := by
    simp only [parseSegments,parseRest_printRest rest ht ts,dif_pos hsegments]
  cases leading <;> simpa [print,parse] using hparse

theorem parseRest_le (ts : List Token) : (parseRest ts).2.length ≤ ts.length := by
  fun_induction parseRest ts with
  | case1 name ts ih =>
    simp only [List.length_cons]
    omega
  | case2 => exact le_rfl

theorem parseSegments_ok {leading : Bool} {ts rest : List Token} {path : Path}
    (h : parseSegments leading ts = some (path,rest)) : path.leading = leading ∧
      ts.head? = some (.ident path.first) ∧ rest.length < ts.length := by
  unfold parseSegments at h
  split at h
  · next first ts =>
    split_ifs at h
    cases h
    exact ⟨rfl,rfl,Nat.lt_succ_of_le (parseRest_le ts)⟩
  · cases h

theorem parse_ok {ts rest : List Token} {path : Path} (h : parse ts = some (path,rest)) :
    (path.leading = true ∨ ts.head? = some (.ident path.first)) ∧ rest.length < ts.length := by
  unfold parse at h
  split at h
  · obtain ⟨hleading,-,hlt⟩ := parseSegments_ok h
    exact ⟨.inl hleading,Nat.lt_succ_of_lt hlt⟩
  · obtain ⟨-,hhead,hlt⟩ := parseSegments_ok h
    exact ⟨.inr hhead,hlt⟩

end Path

/-- What stands behind commas, read at most `fuel` times. -/
def parseFields {P : Type} (parse : Parser (MappingField P)) :
    ℕ → List Token → Except ParseError (List (MappingField P))
  | 0,ts => if ts.isEmpty then .ok [] else .error .syn
  | fuel+1,ts =>
    if ts.isEmpty then .ok []
    else
      match parse ts with
      | .error e => .error e
      | .ok (field,[]) => .ok [field]
      | .ok (field,.comma :: rest) => (parseFields parse fuel rest).map (field :: ·)
      | .ok (_,_ :: _) => .error .syn

theorem parseFields_congr {P : Type} {parse : Parser (MappingField P)}
    (hparse : ∀ ts field rest, parse ts = .ok (field,rest) → rest.length < ts.length)
    {m n : ℕ} {ts : List Token} (hm : ts.length ≤ m) (hn : ts.length ≤ n) :
    parseFields parse m ts = parseFields parse n ts := by
  induction m generalizing n ts with
  | zero =>
    obtain rfl := List.length_eq_zero_iff.mp (Nat.le_zero.mp hm)
    cases n <;> rfl
  | succ m ih =>
    cases n with
    | zero =>
      obtain rfl := List.length_eq_zero_iff.mp (Nat.le_zero.mp hn)
      rfl
    | succ n =>
      rw [parseFields,parseFields]
      split_ifs
      · rfl
      split
      · rfl
      · rfl
      · next field rest hread =>
        have hlt := hparse _ _ _ hread
        rw [List.length_cons] at hlt
        have hrest : parseFields parse m rest = parseFields parse n rest :=
          ih (by omega) (by omega)
        rw [hrest]
      · rfl

/-- The parsing library, as far as it reads paths without generic arguments and types that are named
by one word. -/
def reference : Syn Path String where
  isIdent name := !isKeyword name
  parsePath := Path.parse
  printPath := Path.print
  last := Path.last
  parseType ts := match ts with
    | .ident name :: ts => some (name,ts)
    | _ => none
  printType type := [.ident type]
  parseTerminated parse ts := parseFields parse ts.length ts
  isIdent_word := by decide
  path_word name hname := ⟨⟨false,name,[],by simp_all [isSegment]⟩,rfl,rfl⟩
  parsePath_print path rest t ht := by
    refine path.parse_print ?_ rest
    rcases ht with rfl | rfl | rfl <;> simp
  parsePath_lt h := (Path.parse_ok h).2
  parsePath_try {ts path rest} h htry := by
    obtain ⟨leading,first,more,hsegments⟩ := path
    cases leading with
    | true => simp [Path.print] at htry
    | false =>
      obtain rfl : first = "try" := by simpa [Path.print] using htry
      exact (Path.parse_ok h).1.resolve_left (by simp)
  printPath_paren path ts name content rest := by
    obtain ⟨leading,first,more,hsegments⟩ := path
    cases leading <;> cases more <;> simp [Path.print,Path.printRest]
  parseType_print _ _ := rfl
  parseTerminated_eq parse hparse ts := by
    cases ts with
    | nil => rfl
    | cons t ts =>
      rw [List.length_cons,parseFields]
      split_ifs
      · rfl
      split
      · rfl
      · rfl
      · next field rest hread =>
        have hlt := hparse _ _ _ hread
        simp only [List.length_cons] at hlt
        rw [parseFields_congr hparse (by omega) le_rfl]
      · rfl

/-- The mapping `Total: (PlaceOrder.amount, previous(Order.total)) => OrderPlaced.total using add;` -/
def total : MappingDefinition Path String where
  name := "Total"
  sources := [⟨⟨false,"PlaceOrder",[],by decide⟩,"amount",false⟩,
    ⟨⟨false,"orders",["Order"],by decide⟩,"total",true⟩]
  target := ⟨⟨false,"OrderPlaced",[],by decide⟩,"total",false⟩
  transform := .function ⟨false,"add",[],by decide⟩

theorem total_wellFormed : total.WellFormed reference where
  name := by decide
  nonempty := List.cons_ne_nil _ _
  sources := by
    simp only [total,MappingField.WellFormed]
    decide
  target := by
    simp only [total,MappingField.WellFormed]
    decide
  transform := ⟨by decide,by decide,by simp [reference,Path.print]⟩

theorem parseDefinition_exact_total :
    parseDefinition reference (render reference total) = .ok total :=
  (parseDefinition_exact total).2.mp ((parseDefinition_exact total).1.mpr total_wellFormed)

theorem mapping_reads_total :
    ∃ e, mapping reference Path.last "order.rs" (render reference total) = .ok e ∧
      e.descriptor.sources = ["PlaceOrder.amount","Order.total"] ∧
      e.descriptor.temporalSources = [false,true] ∧
      e.arguments.map (fun g => g.owner.last ++ "." ++ g.field) =
        ["PlaceOrder.amount","Order.total"] := by
  have hparse := parseDefinition_render total_wellFormed
  have he : mapping reference Path.last "order.rs" (render reference total) =
      .ok (expansion Path.last "order.rs" total) := by
    rw [mapping,hparse]
    rfl
  have hsources : (expansion Path.last "order.rs" total).descriptor.sources =
    ["PlaceOrder.amount","Order.total"] := by decide
  obtain ⟨definition,hdefinition,-,-,hreads,hprevious,-⟩ := mapping_reads he
  obtain rfl := Except.ok.inj (hparse.symm.trans hdefinition)
  exact ⟨_,he,hsources,hprevious,hreads ▸ hsources⟩

/-- A function of another module that is named `clone` is not called. -/
example : parseTransform reference [.ident "money",.pathSep,.ident "clone",.semi] =
    .ok (.clone,[.semi]) := rfl

end Reference

end MappingSyntax
end EventCore
