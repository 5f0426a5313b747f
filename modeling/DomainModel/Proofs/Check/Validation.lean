/-
The problems of a model are its references that lead nowhere.

A document refers to its declarations in eight ways (`Use`), and `references` lists every
occurrence of a name in such a place, in document order.  Whether one fits is a matter of
the document alone: of the names its collections have, and for the type of a field of the
flags on that field (`Use.Fits`).  The checks ask a table of names instead; the table was
made before the fields were classified, and agrees with the document afterwards (`Known`).
-/
import DomainModel.Check.Validation
import DomainModel.Proofs.Build.Names
import DomainModel.Proofs.Model.Symbols

namespace DomainModel

/-- The problem that a violation is, located where its path was written. -/
def Violation.problem (m : Model) (v : Violation) : Problem :=
  .ofTemplate v.requirement.code v.path (some v.value) v.requirement.template (m.location? v.path)

/-! ### References -/

/-- Does a value have a flag that is set? -/
def Value.Marked (v : Value) (flag : String) : Prop := (v.get? flag).any Value.isTrue = true

instance (v : Value) (flag : String) : Decidable (v.Marked flag) :=
  inferInstanceAs (Decidable (_ = true))

/-- What a name is used for.  For the type of a field it matters where the field stands and
how it is classified. -/
inductive Use where
  | role
  | type (c : Collection) (field : Value)
  | root
  | parameter
  | result
  | event
  | aggregate
  | side

namespace Use

/-- What is asked of a name in this use. -/
def requirement : Use → Requirement
  | role => .apiRole
  | type _ _ => .fieldType
  | root => .aggregateRoot
  | parameter => .parameter
  | result => .returnType
  | event => .event
  | aggregate => .serviceAggregate
  | side => .relationshipEntity

/-- May the name be used so, as far as the options and the document say? -/
def Fits (o : Options) (d : Document) (name : String) : Use → Prop
  | role => name = "provider" ∨ name = "client"
  | type c field => name ∈ o.standardTypes ∨ name ∈ o.extraTypes ∨
      field.Marked "isEntity" ∨ field.Marked "isEnum" ∨
      c = .inputs ∧ field.Marked "isInput" ∨
      c = .outputs ∧ (field.Marked "isInput" ∨ field.Marked "isOutput") ∨
      c = .events ∧ field.Marked "isEvent"
  | root => name ∈ Dict.keys d.entities
  | parameter => name ∈ Dict.keys d.entities ∨ name ∈ Dict.keys d.inputs
  | result => name ∈ Dict.keys d.entities ∨ name ∈ Dict.keys d.outputs
  | event => name ∈ Dict.keys d.events
  | aggregate => name = "" ∨ name ∈ Dict.keys d.aggregates ∨
      ∃ entity ∈ Dict.get? d.entities name, ∃ options ∈ entity.get? "options",
        options.Marked "aggregate"
  | side => name ∈ Dict.keys d.entities

instance (o : Options) (d : Document) (name : String) (use : Use) :
    Decidable (use.Fits o d name) :=
  match use with
  | role => inferInstanceAs (Decidable (_ ∨ _))
  | type _ _ => inferInstanceAs (Decidable (_ ∨ _))
  | root => inferInstanceAs (Decidable (_ ∈ _))
  | parameter => inferInstanceAs (Decidable (_ ∨ _))
  | result => inferInstanceAs (Decidable (_ ∨ _))
  | event => inferInstanceAs (Decidable (_ ∈ _))
  | aggregate => inferInstanceAs (Decidable (_ ∨ _ ∨ ∃ entity ∈ _, ∃ options ∈ _, _))
  | side => inferInstanceAs (Decidable (_ ∈ _))

end Use

/-- An occurrence of a name: what it is used for, and the steps that lead to it. -/
structure Reference where
  use : Use
  steps : List String
  name : String

namespace Reference

def path (r : Reference) : String := ".".intercalate r.steps

def Fits (o : Options) (d : Document) (r : Reference) : Prop := r.use.Fits o d r.name

instance (o : Options) (d : Document) (r : Reference) : Decidable (r.Fits o d) :=
  inferInstanceAs (Decidable (Use.Fits ..))

/-- The violation that a reference is, if it does not fit. -/
def violation (r : Reference) : Violation := ⟨r.use.requirement, r.path, r.name⟩

end Reference

namespace References

/-- The text that a value has at a key, if it has one. -/
def named (use : Use) (steps : List String) (v : Value) (key : String) : List Reference :=
  ((v.getString? key).map (⟨use, steps ++ [key], ·⟩)).toList

/-- The text that a value has to have at a key; none counts as empty. -/
def namedOrEmpty (use : Use) (steps : List String) (v : Value) (key : String) : Reference :=
  ⟨use, steps ++ [key], (v.getString? key).getD ""⟩

/-- The types of the fields of a collection. -/
def types (c : Collection) (m : Members) : List Reference :=
  m.flatMap fun (name, declaration) =>
    (declaration.entriesAt "fields").flatMap fun (fieldName, field) =>
      named (.type c field) [c.key, name, "fields", fieldName] field "type"

/-- The events of a command or method, each alone or in a group. -/
def events (steps : List String) (method : Value) : List Reference :=
  (method.itemsAt "withEvents").zipIdx.flatMap fun (item, i) =>
    let steps := steps ++ ["withEvents", toString i]
    match item with
    | .list group => group.zipIdx.map fun (inner, j) =>
        ⟨.event, steps ++ [toString j], inner.string?.getD ""⟩
    | single => [⟨.event, steps, single.string?.getD ""⟩]

def ofApi : String × Value → List Reference
  | (name, api) => [namedOrEmpty .role ["apis", name] api "role"]

def ofAggregate : String × Value → List Reference
  | (name, aggregate) =>
    namedOrEmpty .root ["aggregates", name] aggregate "aggregateRoot" ::
      (aggregate.entriesAt "commands").flatMap fun (commandName, command) =>
        let steps := ["aggregates", name, "commands", commandName]
        named .parameter steps command "parameter" ++ events steps command

def ofService : String × Value → List Reference
  | (name, service) =>
    ((service.itemsAt "aggregates").filterMap Value.string?).map
        (⟨.aggregate, ["services", name, "aggregates"], ·⟩) ++
      (service.entriesAt "methods").flatMap fun (methodName, method) =>
        let steps := ["services", name, "methods", methodName]
        named .parameter steps method "parameter" ++
          named .result steps method "returnType" ++ events steps method

def ofGroup : String × Value → List Reference
  | (type, group) => (group.map?.getD []).flatMap fun (name, relationship) =>
      ["from", "to"].flatMap fun key =>
        named .side ["relationships", type, name] relationship key

end References

/-- Every reference of a document, in order. -/
def references (d : Document) : List Reference :=
  d.apis.flatMap References.ofApi ++
    Collection.withFields.flatMap (fun c => References.types c (d.collection c)) ++
    d.aggregates.flatMap References.ofAggregate ++ d.services.flatMap References.ofService ++
    d.relationships.flatMap References.ofGroup

/-! ### Checks -/

/-- A table of names says what a document says: of the names it declares, and of the types
of its fields. -/
structure Known (s : SymbolTable) (d : Document) : Prop where
  declared : ∀ kind name,
    s.contains kind name = true ↔ name ∈ Dict.keys (d.collection kind.collection)
  aggregate : ∀ name, s.isAggregate name = true ↔ name ∈ Dict.keys d.aggregates ∨
    ∃ entity ∈ Dict.get? d.entities name, ∃ options ∈ entity.get? "options",
      options.Marked "aggregate"
  classified : ∀ c ∈ Collection.withFields, ∀ e ∈ d.collection c,
    ∀ f ∈ e.2.entriesAt "fields", ∀ type, f.2.getString? "type" = some type →
      ∀ kind flag, SymbolKind.flag? kind = some flag →
        (f.2.Marked flag ↔ s.contains kind type = true)

/-- The violations among some references. -/
def unmet (o : Options) (d : Document) (rs : List Reference) : List Violation :=
  (rs.filter fun r => ¬r.Fits o d).map Reference.violation

section

open Validation References

variable {o : Options} {s : SymbolTable} {d : Document}

theorem unmet_append (rs rs' : List Reference) :
    unmet o d (rs ++ rs') = unmet o d rs ++ unmet o d rs' := by
  rw [unmet, List.filter_append, List.map_append]
  rfl

theorem unmet_flatMap {α : Type} (f : α → List Reference) (as : List α) :
    unmet o d (as.flatMap f) = as.flatMap fun a => unmet o d (f a) := by
  rw [unmet, List.filter_flatMap, List.map_flatMap]
  rfl

/-- A check that asks whether a reference fits demands what the reference needs. -/
theorem demand_eq {fine : Bool} {r : Reference} {path : String} (hpath : path = r.path)
    (hfine : fine = true ↔ r.Fits o d) :
    demand fine r.use.requirement path r.name = unmet o d [r] := by
  rw [demand, unmet, List.filter_singleton, hpath]
  by_cases h : r.Fits o d
  · simp [h, hfine.mpr h]
  · simp [h, hfine, Reference.violation]

theorem named_eq (use : Use) {steps : List String} {v : Value} {key path : String}
    {fine : String → Bool} (hpath : path = ".".intercalate (steps ++ [key]))
    (hfine : ∀ name, v.getString? key = some name → (fine name = true ↔ use.Fits o d name)) :
    (match v.getString? key with
      | none => []
      | some name => demand (fine name) use.requirement path name) =
      unmet o d (named use steps v key) := by
  rw [named]
  cases h : v.getString? key with
  | none => rfl
  | some name => exact demand_eq (r := ⟨use, _, name⟩) hpath (hfine name h)

theorem apis_eq (m : Members) : apis m = unmet o d (m.flatMap ofApi) := by
  rw [apis, unmet_flatMap]
  refine List.flatMap_congr fun ⟨name, api⟩ _ => ?_
  refine demand_eq (r := namedOrEmpty .role ["apis", name] api "role") ?_ ?_
  · apply String.toList_inj.mp
    simp [Reference.path, namedOrEmpty, String.intercalate_cons_cons]
  · simp [roles, Reference.Fits, namedOrEmpty, Use.Fits]

theorem typeFits_iff {c : Collection} {field : Value} {type : String}
    (hmarked : ∀ kind flag, SymbolKind.flag? kind = some flag →
      (field.Marked flag ↔ s.contains kind type = true)) :
    typeFits o s c type = true ↔ (Use.type c field).Fits o d type := by
  have hentity := hmarked .entity _ rfl
  have henum := hmarked .enumeration _ rfl
  have hinput := hmarked .input _ rfl
  have houtput := hmarked .output _ rfl
  have hevent := hmarked .event _ rfl
  simp only [Use.Fits, hentity, henum, hinput, houtput, hevent]
  cases c <;> simp [typeFits, Options.needsNoDeclaration, or_assoc]

theorem fields_eq (h : Known s d) {c : Collection} (hc : c ∈ Collection.withFields) :
    fields o s c (d.collection c) = unmet o d (types c (d.collection c)) := by
  rw [fields, types, unmet_flatMap]
  refine List.flatMap_congr fun ⟨name, declaration⟩ he => ?_
  rw [unmet_flatMap]
  refine List.flatMap_congr fun ⟨fieldName, field⟩ hf => ?_
  refine named_eq (.type c field) ?_ fun type htype => ?_
  · apply String.toList_inj.mp
    simp [String.intercalate_cons_cons]
  · exact typeFits_iff (h.classified c hc _ he _ hf type htype)

theorem parameter_eq (h : Known s d) {steps : List String} (hsteps : steps ≠ []) (v : Value) :
    parameter s (".".intercalate steps) v = unmet o d (named .parameter steps v "parameter") := by
  refine named_eq .parameter ?_ fun name _ => ?_
  · exact (Path.intercalate_concat hsteps "parameter").symm
  · rw [Bool.or_eq_true, h.declared, h.declared]
    rfl

theorem returnType_eq (h : Known s d) {steps : List String} (hsteps : steps ≠ []) (v : Value) :
    returnType s (".".intercalate steps) v = unmet o d (named .result steps v "returnType") := by
  refine named_eq .result ?_ fun name _ => ?_
  · exact (Path.intercalate_concat hsteps "returnType").symm
  · rw [Bool.or_eq_true, h.declared, h.declared]
    rfl

theorem event_eq (h : Known s d) {steps : List String} {path : String}
    (hpath : path = ".".intercalate steps) (v : Value) :
    event s path v = unmet o d [⟨.event, steps, v.string?.getD ""⟩] :=
  demand_eq (r := ⟨.event, steps, v.string?.getD ""⟩) hpath (h.declared .event _)

theorem withEvents_eq (h : Known s d) {steps : List String} (hsteps : steps ≠ []) (v : Value) :
    withEvents s (".".intercalate steps) v = unmet o d (events steps v) := by
  rw [withEvents, events, unmet_flatMap]
  refine List.flatMap_congr fun ⟨item, i⟩ _ => ?_
  have hplace : ".".intercalate steps ++ ".withEvents." ++ toString i =
      ".".intercalate (steps ++ ["withEvents", toString i]) := by
    rw [String.intercalate_append_of_ne_nil hsteps (List.cons_ne_nil _ _)]
    apply String.toList_inj.mp
    simp [String.intercalate_cons_cons]
  cases item with
  | list group =>
      show group.zipIdx.flatMap _ = unmet o d (group.zipIdx.map _)
      rw [List.map_eq_flatMap, unmet_flatMap]
      refine List.flatMap_congr fun ⟨inner, j⟩ _ => event_eq h ?_ inner
      rw [Path.intercalate_concat (by simp), hplace, String.append_assoc]
  | _ => exact event_eq h hplace _

theorem aggregates_eq (h : Known s d) (m : Members) :
    aggregates s m = unmet o d (m.flatMap ofAggregate) := by
  rw [aggregates, unmet_flatMap]
  refine List.flatMap_congr fun ⟨name, aggregate⟩ _ => ?_
  rw [ofAggregate, ← List.singleton_append, unmet_append, unmet_flatMap]
  refine congrArg₂ (· ++ ·) ?_ (List.flatMap_congr fun ⟨commandName, command⟩ _ => ?_)
  · refine demand_eq (r := namedOrEmpty .root ["aggregates", name] aggregate "aggregateRoot") ?_
      (h.declared .entity _)
    apply String.toList_inj.mp
    simp [Reference.path, namedOrEmpty, String.intercalate_cons_cons]
  · have hpath : "aggregates." ++ name ++ ".commands." ++ commandName =
        ".".intercalate ["aggregates", name, "commands", commandName] := by
      apply String.toList_inj.mp
      simp [String.intercalate_cons_cons]
    dsimp only
    rw [hpath, parameter_eq h (List.cons_ne_nil _ _), withEvents_eq h (List.cons_ne_nil _ _),
      ← unmet_append]

theorem services_eq (h : Known s d) (m : Members) :
    services s m = unmet o d (m.flatMap ofService) := by
  rw [services, unmet_flatMap]
  refine List.flatMap_congr fun ⟨name, service⟩ _ => ?_
  rw [ofService, unmet_append, unmet_flatMap, List.map_eq_flatMap, unmet_flatMap]
  refine congrArg₂ (· ++ ·) (List.flatMap_congr fun aggregate _ => ?_)
    (List.flatMap_congr fun ⟨methodName, method⟩ _ => ?_)
  · refine demand_eq (r := ⟨.aggregate, ["services", name, "aggregates"], aggregate⟩) ?_ ?_
    · apply String.toList_inj.mp
      simp [Reference.path, String.intercalate_cons_cons]
    · rw [Bool.or_eq_true, h.aggregate, String.isEmpty_iff]
      rfl
  · have hpath : "services." ++ name ++ ".methods." ++ methodName =
        ".".intercalate ["services", name, "methods", methodName] := by
      apply String.toList_inj.mp
      simp [String.intercalate_cons_cons]
    dsimp only
    rw [hpath, parameter_eq h (List.cons_ne_nil _ _), returnType_eq h (List.cons_ne_nil _ _),
      withEvents_eq h (List.cons_ne_nil _ _), ← unmet_append, ← unmet_append]

theorem relationships_eq (h : Known s d) (m : Members) :
    relationships s m = unmet o d (m.flatMap ofGroup) := by
  rw [relationships, unmet_flatMap]
  refine List.flatMap_congr fun ⟨type, group⟩ _ => ?_
  rw [ofGroup, unmet_flatMap]
  refine List.flatMap_congr fun ⟨name, relationship⟩ _ => ?_
  rw [unmet_flatMap]
  refine List.flatMap_congr fun key _ => named_eq .side ?_ fun name _ => ?_
  · apply String.toList_inj.mp
    simp [String.intercalate_cons_cons]
  · exact h.declared .entity name

/-- **The checks find the references that do not fit**, in document order. -/
theorem violations_eq (h : Known s d) : violations o s d = unmet o d (references d) := by
  rw [violations, references, unmet_append, unmet_append, unmet_append, unmet_append,
    unmet_flatMap _ Collection.withFields, apis_eq, aggregates_eq h, services_eq h,
    relationships_eq h]
  have hfields : Collection.withFields.flatMap (fun c => fields o s c (d.collection c)) =
      Collection.withFields.flatMap fun c => unmet o d (types c (d.collection c)) :=
    List.flatMap_congr fun c hc => fields_eq h hc
  rw [hfields]

end

/-! ### The whole analysis -/

theorem marksAggregate_iff (node : Value) : SymbolTable.marksAggregate node = true ↔
    ∃ options ∈ node.get? "options", options.Marked "aggregate" := by
  rw [SymbolTable.marksAggregate]
  cases node.get? "options" with
  | none => simp
  | some options => simp [Value.Marked]

theorem entriesAt_declaration (symbols : SymbolTable) (v : Value) :
    (Classification.declaration symbols v).entriesAt "fields" =
      Classification.onValues (Classification.onMap (Classification.field symbols))
        (v.entriesAt "fields") := by
  rw [Value.entriesAt, Classification.get?_declaration, if_pos rfl, Value.entriesAt]
  cases v.get? "fields" with
  | none => rfl
  | some fields => cases fields <;> rfl

/-- A flag on a classified field says what its type is. -/
theorem marked_field {symbols : SymbolTable} {v : Value} {type flag : String} {kind : SymbolKind}
    (hflag : kind.flag? = some flag)
    (htype : (Classification.onMap (Classification.field symbols) v).getString? "type" = some type) :
    (Classification.onMap (Classification.field symbols) v).Marked flag ↔
      symbols.contains kind type = true := by
  cases v with
  | map node =>
      have hnode : (Dict.get? node "type").bind Value.string? = some type := by
        rw [← Classification.get?_field_type symbols]
        exact htype
      show (Dict.get? (Classification.field symbols node) flag).any Value.isTrue = true ↔ _
      rw [Classification.get?_field hflag, hnode]
      rfl
  | _ => exact nomatch htype

/-- **The names taken before classification are right after it**, and the flags agree. -/
theorem known_classify {m : Model} (h : ∀ c ∈ Collection.withFields,
    Classification.Declarations (m.document.collection c)) :
    Known (SymbolTable.ofDocument m.document) m.classify.document where
  declared kind name := by
    rw [Classification.keys_classify h]
    exact SymbolTable.contains_ofDocument m.document kind name
  aggregate name := by
    have hentities := Classification.collection_classify h .entities
    have haggregates : Dict.keys m.classify.document.aggregates = Dict.keys m.document.aggregates :=
      Classification.keys_classify h .aggregates
    rw [SymbolTable.isAggregate_ofDocument (h .entities (by decide)).nodup, haggregates,
      show m.classify.document.entities = _ from hentities, if_pos (by decide),
      Classification.get?_onValues]
    simp only [marksAggregate_iff, Option.mem_def, Option.map_eq_some_iff, exists_exists_and_eq_and,
      Classification.get?_declaration]
    rfl
  classified c hc e he f hf type htype kind flag hflag := by
    rw [Classification.collection_classify h, if_pos hc] at he
    obtain ⟨e', -, rfl⟩ := List.mem_map.mp he
    rw [entriesAt_declaration] at hf
    obtain ⟨f', -, rfl⟩ := List.mem_map.mp hf
    exact marked_field hflag htype

/-- Reporting adds problems and nothing else. -/
theorem foldl_report (vs : List Violation) (m : Model) :
    vs.foldl (fun m v => m.report v.requirement.code v.path (some v.value)
        v.requirement.template) m =
      { m with problems := m.problems ++ vs.map (Violation.problem m) } := by
  induction vs generalizing m with
  | nil => simp
  | cons v vs ih =>
      rw [List.foldl_cons, ih]
      simp [Model.report, Violation.problem, Model.location?]

theorem validate_eq (o : Options) {m : Model} {s : SymbolTable} (h : m.symbols = some s) :
    m.validate o = { m with
      problems := (Validation.violations o s m.document).map (Violation.problem m) } := by
  have hfold := foldl_report (Validation.violations o s m.document) m.withoutProblems
  have hsymbols : m.symbols.getD (SymbolTable.ofDocument m.document) = s := by rw [h]; rfl
  rw [Model.validate, hsymbols]
  exact hfold

/-- A model whose names are known has the problems that its document has. -/
theorem problems_validate (o : Options) {m : Model} {s : SymbolTable} (h : m.symbols = some s)
    (hknown : Known s m.document) :
    (m.validate o).problems = ((references (m.validate o).document).filter fun r =>
      ¬r.Fits o (m.validate o).document).map fun r => r.violation.problem (m.validate o) := by
  rw [validate_eq o h]
  show (Validation.violations o s m.document).map _ = _
  rw [violations_eq hknown, unmet, List.map_map]
  rfl

/-- **The problems of a text are the references of its document that do not fit**, one for
each and in document order. -/
theorem analyze_problems (options : Options) (naming : Naming) (source : String) :
    ∃ a, analyze options naming source = .ok a ∧
      a.model.problems = ((references a.model.document).filter fun r =>
        ¬r.Fits options a.model.document).map fun r => r.violation.problem a.model := by
  have hdecls : ∀ c ∈ Collection.withFields,
      Classification.Declarations ((Direct.model naming source).document.collection c) :=
    fun c hc => declarations_draft _ (shaped_parse source) (Tree.plain_parse source) hc
  have hsymbols : (Direct.model naming source).classify.symbols =
      some (SymbolTable.ofDocument (Direct.model naming source).document) := rfl
  have hproblems := problems_validate options hsymbols (known_classify hdecls)
  have hmodel := analyze_eq options naming source
  generalize (Direct.model naming source).classify.validate options = m at hproblems hmodel
  exact ⟨_, hmodel, hproblems⟩

end DomainModel
