/-
Checks on a document.

Every reference in a document has to lead to a declaration of a fitting kind.  The checks
read the document and the declared names, and report one `Violation` for every reference
that does not fit.  Their order is fixed: interfaces, fields, aggregates, services,
relationships, each in document order.  A field may be of any declared type, of one of the
standard types, or of one of the extra types that the options add.
-/
import DomainModel.Check.Classification

namespace DomainModel

/-- The field types that need no declaration. -/
def standardFieldTypes : List String :=
  ["String", "Integer", "Long", "int", "long", "BigDecimal", "Float", "float", "Double",
    "double", "Enum", "Boolean", "boolean", "Map", "LocalDate", "LocalDateTime", "ZonedDate",
    "ZonedDateTime", "Instant", "Duration", "UUID", "byte", "byte[]", "Blob", "AnyBlob",
    "ImageBlob", "TextBlob"]

structure Options where
  standardTypes : List String := standardFieldTypes
  extraTypes : List String := []
  deriving DecidableEq, Repr

/-- Needs a type no declaration? -/
def Options.needsNoDeclaration (o : Options) (type : String) : Bool :=
  o.standardTypes.contains type || o.extraTypes.contains type

/-- What is asked of a reference. -/
inductive Requirement where
  | apiRole
  | fieldType
  | relationshipEntity
  | serviceAggregate
  | parameter
  | returnType
  | event
  | aggregateRoot
  deriving DecidableEq, Repr

namespace Requirement

def code : Requirement → String
  | apiRole => "E0001"
  | fieldType => "E0002"
  | relationshipEntity => "E0003"
  | serviceAggregate => "E0004"
  | parameter => "E0005"
  | returnType => "E0006"
  | event => "E0007"
  | aggregateRoot => "E0008"

def template : Requirement → String
  | apiRole => "%s is not a valid API role [provider|client]"
  | fieldType => "%s is not a valid type"
  | relationshipEntity => "%s is not a valid entity"
  | serviceAggregate => "%s is not an aggregate"
  | parameter => "%s is not an entity or input"
  | returnType => "%s is not an entity or output"
  | event => "%s is not an event"
  | aggregateRoot => "%s is not an entity"

end Requirement

/-- A requirement that is not met, with the path and the value that do not meet it. -/
structure Violation where
  requirement : Requirement
  path : String
  value : String
  deriving DecidableEq, Repr

namespace Validation

/-- A violation, unless the value is fine. -/
def demand (fine : Bool) (requirement : Requirement) (path value : String) : List Violation :=
  if fine then [] else [⟨requirement, path, value⟩]

def roles : List String := ["provider", "client"]

def apis (entries : Members) : List Violation :=
  entries.flatMap fun (name, api) =>
    let role := (api.getString? "role").getD ""
    demand (roles.contains role) .apiRole ("apis." ++ name ++ ".role") role

/-- May a field in this collection have this type?  Standard types, entities and enums fit
everywhere; inputs fit into inputs and outputs, outputs and events only among their own. -/
def typeFits (o : Options) (s : SymbolTable) (c : Collection) (type : String) : Bool :=
  o.needsNoDeclaration type || s.contains .entity type || s.contains .enumeration type ||
    match c with
    | .inputs => s.contains .input type
    | .outputs => s.contains .input type || s.contains .output type
    | .events => s.contains .event type
    | _ => false

def fields (o : Options) (s : SymbolTable) (c : Collection) (entries : Members) :
    List Violation :=
  entries.flatMap fun (name, declaration) =>
    (declaration.entriesAt "fields").flatMap fun (fieldName, field) =>
      match field.getString? "type" with
      | none => []
      | some type =>
        demand (typeFits o s c type) .fieldType
          (c.key ++ "." ++ name ++ ".fields." ++ fieldName ++ ".type") type

def parameter (s : SymbolTable) (path : String) (method : Value) : List Violation :=
  match method.getString? "parameter" with
  | none => []
  | some type =>
    demand (s.contains .entity type || s.contains .input type) .parameter
      (path ++ ".parameter") type

def returnType (s : SymbolTable) (path : String) (method : Value) : List Violation :=
  match method.getString? "returnType" with
  | none => []
  | some type =>
    demand (s.contains .entity type || s.contains .output type) .returnType
      (path ++ ".returnType") type

def event (s : SymbolTable) (path : String) (v : Value) : List Violation :=
  let name := v.string?.getD ""
  demand (s.contains .event name) .event path name

def withEvents (s : SymbolTable) (path : String) (method : Value) : List Violation :=
  (method.itemsAt "withEvents").zipIdx.flatMap fun (item, i) =>
    let place := path ++ ".withEvents." ++ toString i
    match item with
    | .list group =>
      group.zipIdx.flatMap fun (inner, j) => event s (place ++ "." ++ toString j) inner
    | single => event s place single

def aggregates (s : SymbolTable) (entries : Members) : List Violation :=
  entries.flatMap fun (name, aggregate) =>
    let root := (aggregate.getString? "aggregateRoot").getD ""
    demand (s.contains .entity root) .aggregateRoot
        ("aggregates." ++ name ++ ".aggregateRoot") root ++
      (aggregate.entriesAt "commands").flatMap fun (commandName, command) =>
        let path := "aggregates." ++ name ++ ".commands." ++ commandName
        parameter s path command ++ withEvents s path command

def services (s : SymbolTable) (entries : Members) : List Violation :=
  entries.flatMap fun (name, service) =>
    ((service.itemsAt "aggregates").filterMap Value.string?).flatMap (fun aggregate =>
        demand (aggregate.isEmpty || s.isAggregate aggregate) .serviceAggregate
          ("services." ++ name ++ ".aggregates") aggregate) ++
      (service.entriesAt "methods").flatMap fun (methodName, method) =>
        let path := "services." ++ name ++ ".methods." ++ methodName
        parameter s path method ++ returnType s path method ++ withEvents s path method

def relationships (s : SymbolTable) (entries : Members) : List Violation :=
  entries.flatMap fun (type, group) =>
    (group.map?.getD []).flatMap fun (name, relationship) =>
      ["from", "to"].flatMap fun side =>
        match relationship.getString? side with
        | none => []
        | some entity =>
          demand (s.contains .entity entity) .relationshipEntity
            ("relationships." ++ type ++ "." ++ name ++ "." ++ side) entity

/-- Every violation, in the order of the checks. -/
def violations (o : Options) (s : SymbolTable) (d : Document) : List Violation :=
  apis d.apis ++
    Collection.withFields.flatMap (fun c => fields o s c (d.collection c)) ++
    aggregates s d.aggregates ++ services s d.services ++ relationships s d.relationships

end Validation

/-- Replaces the problems of a model by the violations of all checks.  A model that has not
been classified is checked against the names in its document. -/
def Model.validate (m : Model) (o : Options) : Model :=
  let symbols := m.symbols.getD (SymbolTable.ofDocument m.document)
  (Validation.violations o symbols m.document).foldl
    (fun m f => m.report f.requirement.code f.path (some f.value) f.requirement.template)
    m.withoutProblems

end DomainModel
