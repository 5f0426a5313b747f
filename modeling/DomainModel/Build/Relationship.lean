/-
Relationships.

A relationship is stored under its type and under a name made of both its ends.  An end
that names no entity counts as missing: it adds nothing to the name and no members.
-/
import DomainModel.Build.Opening

namespace DomainModel.Build

/-- The two ends of a relationship. -/
inductive Side where
  | origin
  | target
  deriving DecidableEq, Repr

namespace Side

def node : Side → NodeKind
  | origin => .relationshipFrom
  | target => .relationshipTo

/-- The word for a side in front of a member's name. -/
def lower : Side → String
  | origin => "from"
  | target => "to"

/-- The word for a side inside a member's name. -/
def upper : Side → String
  | origin => "From"
  | target => "To"

end Side

/-- The end on one side, if it names an entity. -/
def endOn (t : Tree) (side : Side) : Option Tree :=
  (t.child? side.node).filter fun e => (e.child? .name).isSome

/-- An end as it appears in the name of its relationship. -/
def endText : Option Tree → String
  | none => ""
  | some e =>
    match e.injectedName? with
    | some field => e.nameOrEmpty ++ "\x7b" ++ field ++ "\x7d"
    | none => e.nameOrEmpty

/-- A check on what an end injects, as it is stored: lengths and bounds are the same
there, and other checks are not kept. -/
def endValidation (t : Tree) : Option (String × Value) :=
  match t.identifier? with
  | some "required" => some ("required", .bool true)
  | some "min" | some "minlength" => some ("minlength", .string (t.argument?.getD ""))
  | some "max" | some "maxlength" => some ("maxlength", .string (t.argument?.getD ""))
  | _ => none

/-- The checks of an end that are kept, each with its tree. -/
def endValidations (e : Tree) : List (Tree × String × Value) :=
  e.injectedValidations.filterMap fun t => (endValidation t).map fun (name, v) => (t, name, v)

def endRecords (input : BuildInput) (path : String) (side : Side) (e : Tree) : Records :=
  let kept := endValidations e
  let base := path ++ "." ++ side.lower ++ "Validations"
  let spans := kept.filterMap fun (t, _) => input.locate (some t)
  (kept.map fun (t, name, _) => (base ++ "." ++ name, input.locate (some t))) ++ [
    (base, coverOf spans.head? spans.getLast?),
    (path ++ "." ++ side.lower, input.locate (e.child? .name)),
    (path ++ ".injectedFieldIn" ++ side.upper,
      input.locate ((e.child? .relationshipField).bind (·.child? .name)))]

/-- The members that an end adds to its relationship. -/
def endMembers (side : Side) (e : Tree) : Members :=
  let options := e.annotations.filterMap fun a => a.identifier?.map fun name =>
    (name, a.annotationValue)
  let kept := endValidations e
  [(side.lower, .string e.nameOrEmpty),
    ("commentIn" ++ side.upper, .ofString? (Tree.docOf e.javadoc?)),
    ("injectedFieldIn" ++ side.upper, .ofString? e.injectedName?),
    (side.lower ++ "Options", .map (Dict.ofList options)),
    (side.lower ++ "Validations",
      .map (Dict.ofList (kept.map fun (_, name, v) => (name, namedEntry name v)))),
    ("injectedFieldIn" ++ side.upper ++ "Description", .ofString? e.injectedDescription?),
    ("isInjectedFieldIn" ++ side.upper ++ "Required",
      .bool (kept.any fun (_, name, _) => name == "required"))]

/-- A relationship of the given type: its name, its node and the spans of its parts. -/
structure Relation where
  type : String
  name : String
  node : Members
  records : Records

def relation (input : BuildInput) (group : Option Tree) (t : Tree) : Relation :=
  let type := (group.bind Tree.name?).getD ""
  let origin := endOn t .origin
  let target := endOn t .target
  let name := type ++ "_" ++ endText origin ++ "_" ++ endText target
  let path := "relationships." ++ type ++ "." ++ name
  let members (side : Side) (e : Option Tree) : Members := (e.map (endMembers side)).getD []
  let records (side : Side) (e : Option Tree) : Records :=
    (e.map (endRecords input path side)).getD []
  { type := type
    name := name
    node := [("type", .string type), ("name", .string name)] ++ members .origin origin ++
      members .target target
    records := [(path, input.locate (some t))] ++ records .origin origin ++
      records .target target }

end DomainModel.Build
