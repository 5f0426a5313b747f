/-
Classification of fields.

Once all declarations are known, every field is marked with what its type is: an entity,
an enum, an input, an output or an event, and whether it is any of these.  The document
then also gets its combined view of everything that can be a type.
-/
import DomainModel.Model.Basic

namespace DomainModel

/-- The collections whose declarations have fields. -/
def Collection.withFields : List Collection := [.entities, .inputs, .outputs, .events]

namespace Classification

/-- The flag and its value for every kind that has one. -/
def flags (symbols : SymbolTable) (type : Option String) : List (String × Bool) :=
  SymbolKind.all.filterMap fun kind =>
    kind.flag?.map fun flag => (flag, type.any (symbols.contains kind))

/-- A field with its flags set. -/
def field (symbols : SymbolTable) (node : Members) : Members :=
  let marks := flags symbols ((Dict.get? node "type").bind Value.string?)
  let marked := marks.foldl (fun node m => Dict.insert m.1 (.bool m.2) node) node
  Dict.insert "isComplexType" (.bool (marks.any (·.2))) marked

/-- The paths of all fields, collection by collection. -/
def fieldPaths (d : Document) : List String :=
  Collection.withFields.flatMap fun c => (d.toValue.select (c.key ++ ".*.fields.*")).map (·.1)

/-- Classifies the field at a path; what is no mapping there stays as it is. -/
def fieldAt (symbols : SymbolTable) (d : Document) (path : String) : Document :=
  match d.toValue.lookup? path with
  | some (.map node) => d.replaceAt path (.map (field symbols node))
  | _ => d

/-- Classifies all fields, at the paths that they have in the beginning. -/
def fields (symbols : SymbolTable) (d : Document) : Document :=
  (fieldPaths d).foldl (fieldAt symbols) d

/-- Everything that can be a type, and the aggregates; of several declarations of one name
the last counts. -/
def combined (d : Document) : Members :=
  [SymbolKind.aggregate, .entity, .enumeration, .input, .output].foldl
    (fun all kind => Dict.extend all (d.collection kind.collection)) []

end Classification

/-- Classifies the fields of a model and collects its names. -/
def Model.classify (m : Model) : Model :=
  let symbols := SymbolTable.ofDocument m.document
  let d := Classification.fields symbols m.document
  { m with
    document := { d with allEntitiesAndEnums := some (Classification.combined d) }
    symbols := some symbols }

end DomainModel
