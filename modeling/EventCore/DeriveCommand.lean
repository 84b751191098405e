import EventCore.StreamDiscovery

/-! The derive macro of commands: the type definitions it accepts, its error for each of the
others, and the stream declarations that the generated code makes of a command. -/
namespace EventCore
namespace DeriveCommand

open Exploration

/-- What an attribute has behind its path. -/
inductive Meta
  | path
  | list (tokens : String)
  | nameValue (value : String)
  deriving DecidableEq

structure Attribute where
  path : List String
  form : Meta
  deriving DecidableEq

/-- A type that is a path of these identifiers, or any other type. -/
inductive Ty
  | path (segments : List String)
  | other (tokens : String)
  deriving DecidableEq

structure Field where
  ident : String
  attrs : List Attribute
  ty : Ty
  deriving DecidableEq

inductive Fields
  | named (fields : List Field)
  | unnamed (types : List Ty)
  | unit
  deriving DecidableEq

inductive Data
  | struct (fields : Fields)
  | enum (variants : List (String × Fields))
  | union (fields : List Field)
  deriving DecidableEq

structure DeriveInput where
  ident : String
  data : Data
  deriving DecidableEq

/-- The part of the input that a compile error points at. -/
inductive Span
  | ident (name : String)
  | attr (field : String) (attr : Attribute)
  | field (name : String)
  deriving DecidableEq

structure SynError where
  span : Span
  message : String
  deriving DecidableEq

def Attribute.isStream (attr : Attribute) : Bool := attr.path = ["stream"]

def extractNamedFields (input : DeriveInput) : Except SynError (List Field) :=
  match input.data with
  | .struct (.named fields) => .ok fields
  | .struct _ => .error ⟨.ident input.ident,
      "EventCore: #[derive(Command)] requires named fields; tuple structs are not supported"⟩
  | _ => .error ⟨.ident input.ident,
      "EventCore: #[derive(Command)] can only be applied to structs, not enums or unions"⟩

def markStream (field : Field) (marked : Bool) (attr : Attribute) : Except SynError Bool :=
  if attr.isStream then
    if attr.form = .path then .ok true
    else .error ⟨.attr field.ident attr,"EventCore: #[stream] does not accept parameters"⟩
  else .ok marked

def hasStreamMarker (field : Field) : Except SynError Bool :=
  field.attrs.foldlM (markStream field) false

/-- `StreamId`, behind no identifiers but those of the crate and of relative paths. -/
def isEventcoreStreamId (segments : List String) : Bool :=
  match segments.getLast? with
  | none => false
  | some last => last = "StreamId" &&
    (segments.take (segments.length-1)).all fun segment =>
      segment ∈ ["eventcore","crate","self","super"]

def ensureStreamIdType (field : Field) : Except SynError Unit :=
  match field.ty with
  | .path segments =>
    if isEventcoreStreamId segments then .ok ()
    else .error ⟨.field field.ident,"EventCore: #[stream] fields must have type eventcore::StreamId"⟩
  | .other _ =>
    .error ⟨.field field.ident,"EventCore: #[stream] fields must have type eventcore::StreamId"⟩

/-- The expression `self.field.clone()`, by the name of its field. -/
def streamExpression (field : Field) : Except SynError String :=
  (ensureStreamIdType field).map fun _ => field.ident

def collectStreamField (streamExprs : List String) (field : Field) :
    Except SynError (List String) :=
  match hasStreamMarker field with
  | .error e => .error e
  | .ok true => (streamExpression field).map fun e => streamExprs ++ [e]
  | .ok false => .ok streamExprs

def collectStreamFields (fields : List Field) : Except SynError (List String) :=
  fields.foldlM collectStreamField []

/-- The generated implementation, by the expressions it is made of. -/
def expandCommand (input : DeriveInput) : Except SynError (List String) :=
  match extractNamedFields input with
  | .error e => .error e
  | .ok fields =>
    match collectStreamFields fields with
    | .error e => .error e
    | .ok [] => .error ⟨.ident input.ident,
      "EventCore: #[derive(Command)] requires at least one #[stream] StreamId field; " ++
        "add #[stream] to your StreamId member"⟩
    | .ok streamExprs => .ok streamExprs

def pushDistinct : List StreamId → List StreamId → List StreamId
  | streams, [] => streams
  | streams, stream :: rest =>
    pushDistinct (if stream ∈ streams then streams else streams ++ [stream]) rest

/-- The generated `stream_declarations`; an error is what its `expect` panics with. -/
def streamDeclarations (streamExprs : List String) (self : String → StreamId) :
    Except StreamDeclarationsError StreamDeclarations :=
  StreamDeclarations.tryFromStreams (pushDistinct [] (streamExprs.map self))

section Generated

theorem pushDistinct_eq (streams rest : List StreamId) :
    pushDistinct streams rest = streams ++ fresh streams rest := by
  induction rest generalizing streams with
  | nil => simp [pushDistinct,fresh]
  | cons stream rest ih =>
    by_cases h : stream ∈ streams
    · rw [pushDistinct,if_pos h,ih,fresh_cons_mem h]
    · rw [pushDistinct,if_neg h,ih,fresh_cons_not_mem h,List.append_assoc,List.singleton_append]

theorem pushDistinct_nil (streams : List StreamId) : pushDistinct [] streams = streams.eraseDups := by
  simp [pushDistinct_eq,fresh]

theorem firstDuplicate_of_nodup {streams : List StreamId} {seen : Finset StreamId}
    (hnodup : streams.Nodup) (hfresh : ∀ s ∈ streams, s ∉ seen) :
    StreamDeclarations.firstDuplicate seen streams = none := by
  induction streams generalizing seen with
  | nil => rfl
  | cons stream streams ih =>
    rw [List.nodup_cons] at hnodup
    rw [StreamDeclarations.firstDuplicate,if_neg (hfresh stream List.mem_cons_self)]
    refine ih hnodup.2 fun s hs hmem => ?_
    rcases Finset.mem_insert.mp hmem with rfl | hmem
    · exact hnodup.1 hs
    · exact hfresh s (List.mem_cons_of_mem _ hs) hmem

theorem tryFromStreams_of_nodup {streams : List StreamId} (hnodup : streams.Nodup)
    (hempty : streams ≠ []) :
    ∃ declarations, StreamDeclarations.tryFromStreams streams = .ok declarations ∧
      declarations.streams = streams := by
  have hnone : StreamDeclarations.firstDuplicate ∅ streams = none := firstDuplicate_of_nodup hnodup (by simp)
  unfold StreamDeclarations.tryFromStreams
  split
  · next duplicate hsome => simp [hnone] at hsome
  · rw [dif_neg hempty]
    exact ⟨_,rfl,rfl⟩

theorem pushDistinct_ne_nil {streams : List StreamId} (h : streams ≠ []) :
    pushDistinct [] streams ≠ [] := by
  rw [pushDistinct_nil]
  cases streams with
  | nil => exact absurd rfl h
  | cons stream streams =>
    rw [List.eraseDups_cons]
    exact List.cons_ne_nil _ _

/-- The generated code never panics, whatever streams the fields hold. -/
theorem streamDeclarations_ok {streamExprs : List String} (h : streamExprs ≠ [])
    (self : String → StreamId) :
    ∃ declarations, streamDeclarations streamExprs self = .ok declarations ∧
      declarations.streams = (streamExprs.map self).eraseDups := by
  rw [← pushDistinct_nil]
  exact tryFromStreams_of_nodup (pushDistinct_nil _ ▸ nodup_eraseDups _)
    (pushDistinct_ne_nil (mt List.map_eq_nil_iff.mp h))

/-- The streams that a command holds in its marked fields, as its declarations. -/
def declared (stream : StreamId) (streams : List StreamId) : StreamDeclarations where
  streams := pushDistinct [] (stream :: streams)
  nonempty := pushDistinct_ne_nil (List.cons_ne_nil _ _)
  nodup := pushDistinct_nil (stream :: streams) ▸ nodup_eraseDups _

theorem streamDeclarations_eq_declared (expr : String) (streamExprs : List String)
    (self : String → StreamId) :
    streamDeclarations (expr :: streamExprs) self =
      .ok (declared (self expr) (streamExprs.map self)) := by
  obtain ⟨declarations,hok,hstreams⟩ :=
    streamDeclarations_ok (List.cons_ne_nil expr streamExprs) self
  rw [hok]
  congr 1
  cases declarations
  simp only [declared,StreamDeclarations.mk.injEq] at hstreams ⊢
  rw [hstreams,← pushDistinct_nil,List.map_cons]

end Generated

section Accepted

/-- Some attribute of the field is a `#[stream]`. -/
def Field.isMarked (field : Field) : Bool := field.attrs.any Attribute.isStream

/-- Every `#[stream]` of the field is bare, and stands on a stream identifier. -/
def Field.WellMarked (field : Field) : Prop :=
  ∀ attr ∈ field.attrs, attr.isStream = true → attr.form = .path ∧
    ∃ segments, field.ty = .path segments ∧ isEventcoreStreamId segments = true

/-- A loop that fails on some elements and else goes on with `g` comes to its end exactly when
there is none of them. -/
theorem foldlM_eq_ok {α β ε : Type} {f : β → α → Except ε β} {g : β → α → β} {P : α → Prop}
    (hf : ∀ b a b', f b a = .ok b' ↔ P a ∧ b' = g b a) (l : List α) (b b' : β) :
    l.foldlM f b = .ok b' ↔ (∀ a ∈ l, P a) ∧ b' = l.foldl g b := by
  induction l generalizing b with
  | nil => simp [pure,Except.pure,eq_comm]
  | cons a l ih =>
    rw [List.foldlM_cons,List.foldl_cons,List.forall_mem_cons]
    cases hstep : f b a with
    | error e =>
      have hbad : ¬P a := by
        intro ha
        have hok := (hf b a (g b a)).mpr ⟨ha,rfl⟩
        rw [hstep] at hok
        cases hok
      simp [bind,Except.bind,hbad]
    | ok mid =>
      obtain ⟨ha,rfl⟩ := (hf b a mid).mp hstep
      exact (ih (g b a)).trans (by simp [ha])

theorem foldl_or {α : Type} (p : α → Bool) (l : List α) (b : Bool) :
    l.foldl (fun b a => p a || b) b = (b || l.any p) := by
  induction l generalizing b with
  | nil => simp
  | cons a l ih =>
    rw [List.foldl_cons,ih,List.any_cons]
    cases p a <;> cases b <;> rfl

theorem foldl_collect {α β : Type} (p : α → Bool) (g : α → β) (l : List α) (acc : List β) :
    l.foldl (fun acc a => if p a then acc ++ [g a] else acc) acc = acc ++ (l.filter p).map g := by
  induction l generalizing acc with
  | nil => simp
  | cons a l ih =>
    rw [List.foldl_cons,ih]
    by_cases h : p a = true <;> simp [h]

theorem hasStreamMarker_eq_ok {field : Field} {marked : Bool} :
    hasStreamMarker field = .ok marked ↔
      (∀ attr ∈ field.attrs, attr.isStream = true → attr.form = .path) ∧
      marked = field.isMarked := by
  have hstep : ∀ (marked : Bool) (attr : Attribute) (marked' : Bool),
      markStream field marked attr = .ok marked' ↔
        (attr.isStream = true → attr.form = .path) ∧ marked' = (attr.isStream || marked) := by
    intro marked attr marked'
    unfold markStream
    by_cases hstream : attr.isStream = true
    · by_cases hform : attr.form = .path <;> simp [hstream,hform,eq_comm]
    · simp [hstream,eq_comm]
  rw [hasStreamMarker,foldlM_eq_ok hstep,foldl_or]
  rfl

theorem streamExpression_eq_ok {field : Field} {expr : String} :
    streamExpression field = .ok expr ↔
      (∃ segments, field.ty = .path segments ∧ isEventcoreStreamId segments = true) ∧
      expr = field.ident := by
  unfold streamExpression ensureStreamIdType
  cases field.ty with
  | other tokens => simp [Except.map]
  | path segments =>
    by_cases h : isEventcoreStreamId segments = true
    · simp [h,Except.map,eq_comm (a := expr)]
    · simp [h,Except.map]

theorem collectStreamFields_eq_ok {fields : List Field} {streamExprs : List String} :
    collectStreamFields fields = .ok streamExprs ↔
      (∀ field ∈ fields, field.WellMarked) ∧
      streamExprs = (fields.filter Field.isMarked).map Field.ident := by
  have hstep : ∀ (exprs : List String) (field : Field) (exprs' : List String),
      collectStreamField exprs field = .ok exprs' ↔
        field.WellMarked ∧ exprs' = if field.isMarked then exprs ++ [field.ident] else exprs := by
    intro exprs field exprs'
    have hsplit : field.WellMarked ↔
        (∀ attr ∈ field.attrs, attr.isStream = true → attr.form = .path) ∧
        (field.isMarked = true →
          ∃ segments, field.ty = .path segments ∧ isEventcoreStreamId segments = true) := by
      constructor
      · intro h
        refine ⟨fun a ha hs => (h a ha hs).1,fun hmarked => ?_⟩
        obtain ⟨a,ha,hs⟩ := List.any_eq_true.mp hmarked
        exact (h a ha hs).2
      · rintro ⟨hbare,htype⟩ a ha hs
        exact ⟨hbare a ha hs,htype (List.any_eq_true.mpr ⟨a,ha,hs⟩)⟩
    rw [hsplit]
    unfold collectStreamField
    cases hmarker : hasStreamMarker field with
    | error e =>
      have hbad : ¬∀ attr ∈ field.attrs, attr.isStream = true → attr.form = .path := by
        intro hbare
        have hok := hasStreamMarker_eq_ok.mpr ⟨hbare,rfl⟩
        rw [hmarker] at hok
        cases hok
      simp only [reduceCtorEq,false_iff]
      exact fun h => hbad h.1.1
    | ok marked =>
      obtain ⟨hbare,hmarked⟩ := hasStreamMarker_eq_ok.mp hmarker
      cases marked with
      | false =>
        simp only [Except.ok.injEq,← hmarked,Bool.false_eq_true,if_false,false_imp_iff,and_true]
        exact ⟨fun h => ⟨hbare,h.symm⟩,fun h => h.2.symm⟩
      | true =>
        cases hexpr : streamExpression field with
        | error e =>
          have hbad : ¬∃ segments, field.ty = .path segments ∧
              isEventcoreStreamId segments = true := by
            intro htype
            have hok := streamExpression_eq_ok.mpr ⟨htype,rfl⟩
            rw [hexpr] at hok
            cases hok
          simp only [Except.map,reduceCtorEq,false_iff]
          exact fun h => hbad (h.1.2 hmarked.symm)
        | ok expr =>
          obtain ⟨htype,rfl⟩ := streamExpression_eq_ok.mp hexpr
          simp only [Except.map,Except.ok.injEq,← hmarked,if_true]
          exact ⟨fun h => ⟨⟨hbare,fun _ => htype⟩,h.symm⟩,fun h => h.2.symm⟩
  rw [collectStreamFields,foldlM_eq_ok hstep,foldl_collect]
  rfl

theorem expandCommand_eq_ok {input : DeriveInput} {streamExprs : List String} :
    expandCommand input = .ok streamExprs ↔
      ∃ fields, input.data = .struct (.named fields) ∧
        collectStreamFields fields = .ok streamExprs ∧ streamExprs ≠ [] := by
  unfold expandCommand extractNamedFields
  cases input.data with
  | enum variants => simp
  | union fields => simp
  | struct fields =>
    cases fields with
    | unnamed types => simp
    | unit => simp
    | named fields =>
      simp only [Data.struct.injEq,Fields.named.injEq,exists_eq_left']
      cases hcollect : collectStreamFields fields with
      | error e => simp
      | ok exprs =>
        cases exprs with
        | nil =>
          simp only [reduceCtorEq,Except.ok.injEq,false_iff]
          rintro ⟨rfl,hne⟩
          exact hne rfl
        | cons expr exprs =>
          simp only [Except.ok.injEq]
          constructor
          · rintro rfl
            exact ⟨rfl,List.cons_ne_nil _ _⟩
          · exact fun h => h.1

/-- The macro accepts exactly the structs with named fields, at least one of them marked, whose
marks are all bare and on stream identifiers; and the code it then generates declares, for every
value of the struct and without a panic, the streams of the marked fields, each once, in the
order of the fields. -/
theorem derive_exact (input : DeriveInput) :
    (∀ streamExprs, expandCommand input = .ok streamExprs ↔
      ∃ fields, input.data = .struct (.named fields) ∧ (∀ field ∈ fields, field.WellMarked) ∧
        (∃ field ∈ fields, field.isMarked = true) ∧
        streamExprs = (fields.filter Field.isMarked).map Field.ident) ∧
    ∀ streamExprs, expandCommand input = .ok streamExprs →
      ∃ first rest, streamExprs = first :: rest ∧ ∀ self : String → StreamId,
        streamDeclarations streamExprs self = .ok (declared (self first) (rest.map self)) ∧
          (declared (self first) (rest.map self)).streams = (streamExprs.map self).eraseDups := by
  refine ⟨fun streamExprs => ?_,fun streamExprs hok => ?_⟩
  · rw [expandCommand_eq_ok]
    constructor
    · rintro ⟨fields,hfields,hcollect,hne⟩
      obtain ⟨hwell,rfl⟩ := collectStreamFields_eq_ok.mp hcollect
      refine ⟨fields,hfields,hwell,?_,rfl⟩
      obtain ⟨field,hfield⟩ := List.exists_mem_of_ne_nil _ (mt List.map_eq_nil_iff.mpr hne)
      exact ⟨field,List.mem_filter.mp hfield⟩
    · rintro ⟨fields,hdata,hwell,⟨field,hfield,hmarked⟩,rfl⟩
      refine ⟨fields,hdata,collectStreamFields_eq_ok.mpr ⟨hwell,rfl⟩,?_⟩
      exact List.ne_nil_of_mem (List.mem_map_of_mem (List.mem_filter.mpr ⟨hfield,hmarked⟩))
  · obtain ⟨fields,-,-,hne⟩ := expandCommand_eq_ok.mp hok
    obtain ⟨first,rest,rfl⟩ := List.exists_cons_of_ne_nil hne
    refine ⟨first,rest,rfl,fun self => ⟨streamDeclarations_eq_declared first rest self,?_⟩⟩
    rw [List.map_cons]
    exact pushDistinct_nil _

end Accepted

end DeriveCommand
end EventCore
