/-
Declarations and their fields.

An entity, input, output or event becomes a node with its derived names and a mapping of
fields.  A field that declares its type on the spot yields a second declaration, next to
the one it stands in; that one is embedded and takes over the options of the field.
-/
import DomainModel.Build.Opening

namespace DomainModel.Build

/-- The node of a declaration without fields. -/
def declarationMembers (n : Naming) (name : String) (c : Collection) (javadoc table : Option String)
    (options : Members) : Members :=
  let derived := n.formsOf name
  [("name", .string name), ("type", .string c.key), ("className", .string derived.className),
    ("tableName", .string (table.getD derived.snakeCase)),
    ("instanceName", .string derived.instanceName),
    ("classNamePlural", .string derived.classNamePlural),
    ("instanceNamePlural", .string derived.instanceNamePlural),
    ("kebabCase", .string derived.kebabCase),
    ("kebabCasePlural", .string derived.kebabCasePlural),
    ("javadoc", .ofString? javadoc), ("options", .map options), ("optionsList", .emptyList),
    ("fields", .emptyMap)]

def declaration (input : BuildInput) (c : Collection) (t : Tree) : Opening :=
  let name := t.nameOrEmpty
  let path := c.key ++ "." ++ name
  { records := [
      (path, input.locate (some t)),
      (path ++ ".name", input.locate (t.child? .name)),
      (path ++ ".tableName", input.locate (t.child? .tableName)),
      (path ++ ".body", input.locate (t.child? .declBody))]
    scope := {
      kind := .declaration
      path := path
      node := declarationMembers input.naming name c (Tree.docOf t.javadoc?)
        (t.childWord? .tableName) []
      place := ⟨c, none, name⟩ } }

/-- The type of a field and whether it is an array.  An array of bytes is a type of its
own. -/
def fieldTypeOf (t : Tree) : Option String × Bool :=
  match t.child? .fieldType with
  | none => (none, false)
  | some type =>
    if type.hasBrackets && type.identifier? == some "byte" then (some "byte[]", false)
    else (type.identifier?, type.hasBrackets)

/-- The initial value of a field: a literal's value, or what is written as a word. -/
def initialValueOf (t : Tree) : Value :=
  match t.child? .initialValue with
  | none => .null
  | some written =>
    match written.literal? with
    | some literal => literal.scalar
    | none => Literal.word (onText Text.trim written.text)

def fieldMembers (t : Tree) : Members :=
  let javadoc := Value.ofString? (Tree.docOf t.anyJavadoc?)
  let (type, isArray) := fieldTypeOf t
  [("name", .string t.nameOrEmpty), ("type", .ofString? type), ("initialValue", initialValueOf t),
    ("javadoc", javadoc), ("comment", javadoc), ("isEnum", .bool false),
    ("isEntity", .bool false), ("isInput", .bool false), ("isOutput", .bool false),
    ("isEvent", .bool false), ("isArray", .bool isArray), ("isComplexType", .bool false),
    ("options", .emptyMap), ("optionsList", .emptyList),
    ("validations", .map (validationEntries t.validations))]

/-- A field in the declaration that `owner` holds. -/
def field (input : BuildInput) (owner : Scope) (t : Tree) : Opening :=
  let name := t.nameOrEmpty
  let path := owner.path ++ ".fields." ++ name
  { records := validationRecords input path t.validations ++ [
      (path, input.locate (some t)),
      (path ++ ".name", input.locate (t.child? .name)),
      (path ++ ".type", input.locate (t.child? .fieldType)),
      (path ++ ".javadoc", input.locateToken t.anyJavadoc?)]
    scope := {
      kind := .field
      path := path
      node := fieldMembers t
      place := ⟨owner.place.collection, some "fields", name⟩ } }

/-- The scope of a field once the checks behind its block are known. -/
def withNestedValidations (fieldScope : Scope) (block : Tree) : Scope :=
  fieldScope.updateMap "validations" (Dict.extend · (validationEntries block.validations))

/-- The declaration that a block of fields makes of the type of its field. -/
def nestedField (input : BuildInput) (fieldScope : Scope) (owner block : Tree) : Opening :=
  let c := fieldScope.place.collection
  let type := owner.child? .fieldType
  let name := (type.bind Tree.identifier?).getD ""
  let path := c.key ++ "." ++ name
  let options := Dict.extend [("embedded", .bool true)] (fieldScope.mapAt "options")
  { records := validationRecords input fieldScope.path block.validations ++ [
      (path, coverOf (input.locate type) (input.locate (some block))),
      (path ++ ".name", input.locate type),
      (path ++ ".tableName", input.locate (owner.child? .tableName)),
      (path ++ ".body", input.locate (some block))]
    scope := {
      kind := .nestedField
      path := path
      node := declarationMembers input.naming name c (Tree.docOf owner.javadoc?)
        (owner.childWord? .tableName) options
      place := ⟨c, none, name⟩ } }

def enumeration (input : BuildInput) (t : Tree) : Opening :=
  let name := t.nameOrEmpty
  let path := "enums." ++ name
  let javadoc := Value.ofString? (Tree.docOf t.javadoc?)
  { records := [
      (path, input.locate (some t)),
      (path ++ ".name", input.locate (t.child? .name)),
      (path ++ ".body", input.locate (t.child? .enumBody))]
    scope := {
      kind := .enumeration
      path := path
      node := [("name", .string name), ("type", .string "enums"),
        ("className", .string (input.naming.className name)), ("javadoc", javadoc),
        ("comment", javadoc), ("options", .emptyMap), ("optionsList", .emptyList),
        ("hasValue", .bool false), ("values", .emptyMap)]
      place := ⟨.enums, none, name⟩ } }

/-- The scope of an enum with one more of its values. -/
def withEnumValue (enumScope : Scope) (t : Tree) : Scope :=
  let javadoc := Value.ofString? (Tree.docOf t.anyJavadoc?)
  let value := t.literal?.map Tree.scalar
  let entry := Value.map [("name", .string t.nameOrEmpty), ("javadoc", javadoc),
    ("comment", javadoc), ("value", value.getD .null)]
  let marked := if value.isSome then
      { enumScope with node := Dict.insert "hasValue" (.bool true) enumScope.node }
    else enumScope
  marked.updateMap "values" (Dict.insert t.nameOrEmpty entry)

end DomainModel.Build
