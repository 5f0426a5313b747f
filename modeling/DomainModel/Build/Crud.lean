/-
Methods that a service has without their being written.

A service declared for a list of entities alone gets five methods for each of them:
create, update, get, list and delete, with the route each is reached by.
-/
import DomainModel.Name.Naming
import DomainModel.Value.Basic

namespace DomainModel

namespace Crud

/-- The option that gives a method its route. -/
def route (verb path : String) : Members :=
  [("options", .map [(verb, .string path)]),
    ("optionsList", .list [.map [("name", .string verb), ("value", .string path)]])]

/-- The members that every method begins with. -/
def method (name service : String) : Members :=
  [("name", .string name), ("serviceName", .string service)]

/-- The methods of one entity, in order, with their names. -/
def methodsOf (n : Naming) (service entity : String) : List (String × Value) :=
  let entity := onText Text.trim entity
  let path := "/" ++ n.kebabCase (n.pluralize (onText Text.lower entity))
  let idPath := path ++ "/\x7b" ++ n.instanceName entity ++ "Id\x7d"
  let named (name : String) (members : Members) : String × Value :=
    (name, .map (method name service ++ members))
  [named ("create" ++ entity)
      ([("parameter", .string entity), ("returnType", .string entity)] ++ route "post" path),
    named ("update" ++ entity)
      ([("paramId", .string "id"), ("parameter", .string entity), ("returnType", .string entity),
        ("returnTypeIsOptional", .bool true)] ++ route "put" idPath),
    named ("get" ++ entity)
      ([("paramId", .string "id"), ("returnType", .string entity),
        ("returnTypeIsOptional", .bool true)] ++ route "get" idPath),
    named ("list" ++ n.pluralize entity)
      ([("paginated", .bool true), ("returnType", .string entity),
        ("returnTypeIsArray", .bool true)] ++ route "get" path),
    named ("delete" ++ entity) ([("paramId", .string "id")] ++ route "delete" idPath)]

/-- The methods of all entities by name; a later one replaces an earlier one. -/
def methods (n : Naming) (service : String) (entities : List String) : Members :=
  Dict.ofList (entities.flatMap (methodsOf n service))

end Crud

end DomainModel
