/-
Services, aggregates and what they offer.

Methods of a service and commands of an aggregate are nodes of their own, in the mapping
of the construct they stand in.  The events they lead to are a list, in which a group of
alternatives is a list again.
-/
import DomainModel.Build.Crud
import DomainModel.Build.Opening

namespace DomainModel.Build

def eventName (t : Tree) : Value := .string (t.word?.getD "")

/-- One entry of a list of events. -/
def eventValue : Tree.EventEntry → Value
  | .single node => eventName node
  | .group _ alternatives => .list (alternatives.map eventName)

def eventsOf (t : Tree) : Value :=
  .list (((t.child? .withEvents).map Tree.eventEntries).getD [] |>.map eventValue)

/-- The spans of one entry.  An event is recorded by its name first and by its index after
that, so its index is what its place resolves to. -/
def eventRecords (input : BuildInput) (base : String) (i : Nat) : Tree.EventEntry → Records
  | .single node =>
    let span := input.locate (some node)
    [(base ++ "." ++ node.word?.getD "", span), (base ++ "." ++ toString i, span)]
  | .group node alternatives =>
    (base ++ "." ++ toString i, input.locate (some node)) ::
      alternatives.zipIdx.flatMap fun (event, j) =>
        let span := input.locate (some event)
        [(base ++ "." ++ event.word?.getD "", span),
          (base ++ "." ++ toString i ++ "." ++ toString j, span)]

def withEventsRecords (input : BuildInput) (path : String) (t : Tree) : Records :=
  match t.child? .withEvents with
  | none => []
  | some list =>
    let base := path ++ ".withEvents"
    (base, input.locate (some list)) ::
      list.eventEntries.zipIdx.flatMap fun (item, i) => eventRecords input base i item

/-- The parameter's type. -/
def parameterNode? (t : Tree) : Option Tree :=
  (t.child? .methodParams).bind (·.child? .methodParameter)

/-- Is there a parameter of this kind? -/
def hasParameter (t : Tree) (kind : NodeKind) : Bool :=
  ((t.child? .methodParams).bind (·.child? kind)).isSome

/-- The members that methods and commands share, behind those that only one has. -/
def sharedMembers (t : Tree) : Members :=
  [("withEvents", eventsOf t), ("options", .emptyMap), ("optionsList", .emptyList),
    ("javadoc", .ofString? (Tree.docOf t.anyJavadoc?))]

def parameterMember (t : Tree) : String × Value :=
  ("parameter", .ofString? ((parameterNode? t).bind Tree.word?))

def methodMembers (ownerName : String) (t : Tree) : Members :=
  let result := t.child? .methodReturn
  [("name", .string t.nameOrEmpty), ("serviceName", .string ownerName),
    ("naturalId", if hasParameter t .naturalId then .bool true else .null),
    ("paramId", if hasParameter t .paramId then .string "id" else .null),
    parameterMember t, ("returnType", .ofString? (result.bind Tree.identifier?)),
    ("returnTypeIsArray", .bool (result.any Tree.hasBrackets)),
    ("returnTypeIsOptional", .bool (result.any Tree.hasQuestion))] ++ sharedMembers t

def commandMembers (ownerName : String) (t : Tree) : Members :=
  [("name", .string t.nameOrEmpty), ("aggregateName", .string ownerName), parameterMember t] ++
    sharedMembers t

/-- The spans that methods and commands share. -/
def operationRecords (input : BuildInput) (path : String) (t : Tree) : Records :=
  withEventsRecords input path t ++ [
    (path, input.locate (some t)),
    (path ++ ".name", input.locate (t.child? .name)),
    (path ++ ".parameter", input.locate (parameterNode? t))]

/-- A method of the service that `owner` holds, or a command of an aggregate. -/
def operation (owner : Scope) (kind : ScopeKind) (slot : String) (t : Tree) (node : Members)
    (records : String → Records) : Opening :=
  let path := owner.path ++ "." ++ slot ++ "." ++ t.nameOrEmpty
  ⟨records path, ⟨kind, path, node, ⟨owner.place.collection, some slot, t.nameOrEmpty⟩⟩⟩

def serviceMethod (input : BuildInput) (owner : Scope) (parent : Option Tree) (t : Tree) :
    Opening :=
  operation owner .method "methods" t (methodMembers ((parent.bind Tree.name?).getD "") t)
    fun path => (path ++ ".returnType", input.locate (t.child? .methodReturn)) ::
      operationRecords input path t

def aggregateCommand (input : BuildInput) (owner : Scope) (parent : Option Tree) (t : Tree) :
    Opening :=
  operation owner .command "commands" t (commandMembers ((parent.bind Tree.name?).getD "") t)
    fun path => operationRecords input path t

/-- The spans of a service. -/
def serviceRecords (input : BuildInput) (path : String) (t : Tree) : Records :=
  [(path, input.locate (some t)),
    (path ++ ".name", input.locate (t.child? .name)),
    (path ++ ".aggregates", input.locate (t.child? .serviceAggregates))]

def service (input : BuildInput) (t : Tree) : Opening :=
  let name := t.nameOrEmpty
  let path := "services." ++ name
  { records := serviceRecords input path t
    scope := {
      kind := .service
      path := path
      node := [("name", .string name), ("className", .string (input.naming.className name)),
        ("javadoc", .ofString? (Tree.docOf t.javadoc?)),
        ("aggregates", .list (t.aggregateNames.map .string)), ("options", .emptyMap),
        ("optionsList", .emptyList), ("methods", .emptyMap)]
      place := ⟨.services, none, name⟩ } }

/-- A service whose methods are not written. -/
def legacyService (input : BuildInput) (t : Tree) : Opening :=
  let name := t.nameOrEmpty
  let path := "services." ++ name
  { records := serviceRecords input path t
    scope := {
      kind := .legacyService
      path := path
      node := [("name", .string name), ("isLegacy", .bool true),
        ("className", .string (input.naming.className name)),
        ("javadoc", .string "Legacy service"),
        ("aggregates", .list (t.aggregateNames.map .string)),
        ("options", .map [("rest", .bool true)]),
        ("optionsList", .list [namedEntry "rest" (.bool true)]),
        ("methods", .map (Crud.methods input.naming name t.aggregateNames))]
      place := ⟨.services, none, name⟩ } }

def aggregate (input : BuildInput) (t : Tree) : Opening :=
  let name := t.nameOrEmpty
  let path := "aggregates." ++ name
  { records := [
      (path, input.locate (some t)),
      (path ++ ".name", input.locate (t.child? .name)),
      (path ++ ".aggregateRoot", input.locate (t.child? .aggregateRoot))]
    scope := {
      kind := .aggregate
      path := path
      node := [("name", .string name), ("type", .string "aggregates"),
        ("className", .string (input.naming.className name)),
        ("javadoc", .ofString? (Tree.docOf t.javadoc?)),
        ("aggregateRoot", .ofString? (t.childWord? .aggregateRoot)), ("options", .emptyMap),
        ("optionsList", .emptyList), ("commands", .emptyMap)]
      place := ⟨.aggregates, none, name⟩ } }

end DomainModel.Build
