/-
Building documents.

A document is built along a walk over the tree.  Entering a construct opens a scope and
reserves the name it will be stored under, so that names stand in the order in which they
were met; leaving it stores the node that the scope has become.  What stands inside a
construct writes into the innermost scope.
-/
import DomainModel.Build.Declaration
import DomainModel.Build.Global
import DomainModel.Build.Relationship
import DomainModel.Build.Service
import DomainModel.Model.Basic
import DomainModel.Tree.Visit

namespace DomainModel

/-- A document under construction. -/
structure Building where
  document : Document := .empty
  locations : Locations := .empty
  stack : Scopes := []

namespace Building

/-- Records the spans of the parts that are there. -/
def record (b : Building) (records : Records) : Building :=
  { b with locations := records.foldl (fun index r =>
      match r.2 with
      | some span => index.record r.1 span
      | none => index) b.locations }

def updateTop (b : Building) (f : Scope → Scope) : Building :=
  { b with stack := b.stack.modifyTop f }

/-- Changes the mapping in which a place lies. -/
def updateAt (b : Building) (place : Place) (f : Members → Members) : Building :=
  match place.slot with
  | none => { b with document := b.document.update place.collection f }
  | some slot => b.updateTop (·.updateMap slot f)

/-- Opens a construct: records its spans, reserves its name and puts its scope on top. -/
def opening (b : Building) (o : Opening) : Building :=
  let reserved := (b.record o.records).updateAt o.scope.place
    (Dict.reserve o.scope.place.name .null)
  { reserved with stack := o.scope :: reserved.stack }

/-- Closes the innermost construct and stores its node; where that belongs into a construct,
one has to be open. -/
def closing (b : Building) (kind : ScopeKind) : Except Fault Building := do
  let (popped, stack) := b.stack.pop kind
  let scope ← popped
  if scope.place.slot.isSome && stack.isEmpty then throw (.parentless kind scope.path)
  return { b with stack := stack }.updateAt scope.place
    (Dict.insert scope.place.name (.map scope.node))

/-- Notes an annotation on the innermost construct. -/
def annotate (b : Building) (t : Tree) : Building :=
  match t.identifier? with
  | none => b
  | some name =>
    let v := t.annotationValue
    b.updateTop fun f =>
      (f.updateMap "options" (Dict.insert name v)).push "optionsList" (Build.namedEntry name v)

/-- Writes an entry into a mapping of the innermost construct. -/
def enterEntry (b : Building) (slot : String) (entry : String × Value) : Building :=
  b.updateTop (·.updateMap slot (Dict.insert entry.1 entry.2))

/-- Writes an entry into a collection of the document. -/
def storeEntry (b : Building) (c : Collection) (entry : String × Value) : Building :=
  { b with document := b.document.update c (Dict.insert entry.1 entry.2) }

/-- Stores a relationship in the group of its type. -/
def storeRelation (b : Building) (r : Build.Relation) : Building :=
  let intoGroup : Value → Value
    | .map group => .map (Dict.insert r.name (.map r.node) group)
    | v => v
  let b := b.record r.records
  { b with document := b.document.update .relationships fun groups =>
      Dict.modify r.type intoGroup (Dict.reserve r.type .emptyMap groups) }

/-- Opens a field, which has to stand in a declaration. -/
def openField (input : BuildInput) (b : Building) (t : Tree) : Except Fault Building := do
  let owner ← b.stack.owner [.declaration, .nestedField] "field"
  return b.opening (Build.field input owner t)

/-- Opens a block of fields, which has to stand behind a field. -/
def openNested (input : BuildInput) (b : Building) (parent : Option Tree) (t : Tree) :
    Except Fault Building := do
  let scope ← b.stack.owner [.field] "nested field"
  match parent.filter (Tree.isNode .field) with
  | none => throw (.ownerless scope.path)
  | some owner =>
    return (b.updateTop fun f => Build.withNestedValidations f t).opening
      (Build.nestedField input scope owner t)

/-- The effect of entering a construct. -/
def enter (input : BuildInput) (b : Building) (kind : NodeKind) (t : Tree)
    (parent : Option Tree) : Except Fault Building :=
  match kind with
  | .globalJavadoc =>
    match t.word? with
    | none => .ok b
    | some comment =>
      .ok { b with document := { b.document with
        javadoc := some (onText Text.docText comment) } }
  | .legacyConstant => .ok (b.storeEntry .constants (Build.constantEntry t))
  | .importStatement =>
    match t.literal? with
    | none => .ok b
    | some literal => .ok { b with document := { b.document with
        imports := b.document.imports ++ [.string literal.bareText] } }
  | .configOption => .ok (b.storeEntry .config (Build.settingEntry t))
  | .api => .ok (b.opening (Build.api input t))
  | .apiConfig | .pluginConfigOption => .ok (b.enterEntry "config" (Build.settingEntry t))
  | .plugin => .ok (b.opening (Build.plugin input t))
  | .pluginCliOption => .ok (b.enterEntry "cliOptions" (Build.cliOptionEntry t))
  | .policy =>
    .ok (b.storeEntry .policies (Build.policyEntry (parent.filter (Tree.isNode .policies)) t))
  | .entity => .ok (b.opening (Build.declaration input .entities t))
  | .input => .ok (b.opening (Build.declaration input .inputs t))
  | .output => .ok (b.opening (Build.declaration input .outputs t))
  | .event => .ok (b.opening (Build.declaration input .events t))
  | .annotationNode => .ok (b.annotate t)
  | .field => openField input b t
  | .nestedField => openNested input b parent t
  | .enumeration => .ok (b.opening (Build.enumeration input t))
  | .enumValue => .ok (b.updateTop fun f => Build.withEnumValue f t)
  | .relationship =>
    .ok (b.storeRelation
      (Build.relation input (parent.filter (Tree.isNode .relationshipGroup)) t))
  | .service => .ok (b.opening (Build.service input t))
  | .legacyService => .ok (b.opening (Build.legacyService input t))
  | .serviceMethod => do
    let owner ← b.stack.owner [.service] "methods"
    return b.opening (Build.serviceMethod input owner parent t)
  | .aggregate => .ok (b.opening (Build.aggregate input t))
  | .aggregateCommand => do
    let owner ← b.stack.owner [.aggregate] "commands"
    return b.opening (Build.aggregateCommand input owner parent t)
  | _ => .ok b

/-- The kind of scope that a construct opens. -/
def scopeKind? : NodeKind → Option ScopeKind
  | .api => some .api
  | .plugin => some .plugin
  | .entity | .input | .output | .event => some .declaration
  | .field => some .field
  | .nestedField => some .nestedField
  | .enumeration => some .enumeration
  | .service => some .service
  | .legacyService => some .legacyService
  | .serviceMethod => some .method
  | .aggregate => some .aggregate
  | .aggregateCommand => some .command
  | _ => none

/-- The effect of leaving a construct. -/
def leave (b : Building) (kind : NodeKind) : Except Fault Building :=
  match scopeKind? kind with
  | some scope => b.closing scope
  | none => .ok b

def step (input : BuildInput) (b : Building) : Visit → Except Fault Building
  | .enter kind t parent => b.enter input kind t parent
  | .leave kind _ => b.leave kind

/-- The finished model; everything has to be closed. -/
def finish (b : Building) : Except Fault Model :=
  match b.stack with
  | [] => .ok { document := b.document, locations := b.locations }
  | f :: _ => .error (.leftOpen f.kind f.path)

end Building

/-- The model of a tree. -/
def Model.ofTree (input : BuildInput) (t : Tree) : Except Fault Model := do
  (← t.visits.foldlM (Building.step input) {}).finish

end DomainModel
