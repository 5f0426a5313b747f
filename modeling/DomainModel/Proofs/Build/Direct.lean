/-
The document of a tree, by recursion on the tree.

A document is built along a walk, with a stack of open constructs and names that are
reserved long before their nodes are there.  Here the same document is read off the tree
itself.  `slots` says what a construct holds of what stands inside it, in one piece; no
construct is ever half done.  `changes` goes through a tree and lists what each part adds:
a construct that is stored in a collection reserves its name in front of everything inside
it and stores its node behind.

`Site` forgets all but the constructs that are stored.  `sitesBefore` lists them as a
reader meets them, `sitesAfter` as they are completed; which name comes first in a
collection is a matter of the one order, which node survives under a name of the other.
-/
import DomainModel.Build.Basic
import DomainModel.Proofs.Value.Dict

namespace DomainModel

/-- What has been made of a text so far, apart from what is still open. -/
structure Draft where
  document : Document := .empty
  locations : Locations := .empty

/-- Something that a part of a text adds to the whole. -/
inductive Change where
  | recorded (records : Records)
  | reserved (collection : Collection) (name : String)
  | stored (collection : Collection) (name : String) (value : Value)
  | related (relation : Build.Relation)
  | imported (value : Value)
  | commented (text : String)

/-- Puts a relationship into the group of its type. -/
def Members.relate (groups : Members) (r : Build.Relation) : Members :=
  let intoGroup : Value → Value
    | .map group => .map (Dict.insert r.name (.map r.node) group)
    | v => v
  Dict.modify r.type intoGroup (Dict.reserve r.type .emptyMap groups)

namespace Draft

def change (d : Draft) : Change → Draft
  | .recorded records =>
    { d with locations := records.foldl (fun index r =>
        match r.2 with
        | some span => index.record r.1 span
        | none => index) d.locations }
  | .reserved c name => { d with document := d.document.update c (Dict.reserve name .null) }
  | .stored c name value => { d with document := d.document.update c (Dict.insert name value) }
  | .related r =>
    { d with document := d.document.update .relationships fun groups => Members.relate groups r }
  | .imported value => { d with document := { d.document with
      imports := d.document.imports ++ [value] } }
  | .commented text => { d with document := { d.document with javadoc := some text } }

end Draft

namespace Direct

/-! ### What a construct holds -/

/-- The annotations with a name among some trees, with their values. -/
def notesIn (ts : List Tree) : List (String × Value) :=
  (ts.filter (Tree.isNode .annotationNode)).filterMap fun a =>
    a.identifier?.map fun name => (name, a.annotationValue)

/-- The mapping and the list that annotations make. -/
def noted (ts : List Tree) : Members :=
  [("options", .map (Dict.ofList (notesIn ts))),
    ("optionsList", .list ((notesIn ts).map fun e => Build.namedEntry e.1 e.2))]

/-- The entries that the children of one kind make. -/
def entriesOf (kind : NodeKind) (entry : Tree → String × Value) (ts : List Tree) : Value :=
  .map (Dict.ofList ((ts.filter (Tree.isNode kind)).map entry))

/-- The checks behind the blocks of a field, block by block. -/
def checksBehind (ts : List Tree) : Members :=
  (ts.filter (Tree.isNode .nestedField)).flatMap fun block =>
    Build.validationEntries block.validations

/-- The checks of a field: its own, then those behind its blocks. -/
def checks (t : Tree) (ts : List Tree) : Members :=
  [("validations", .map (Dict.extend (Build.validationEntries t.validations) (checksBehind ts)))]

/-- The entry of a field: its name and its node. -/
def fieldEntry (t : Tree) : String × Value :=
  (t.nameOrEmpty, .map (Dict.extend (Build.fieldMembers t) (noted t.children ++ checks t t.children)))

def enumValueEntry (t : Tree) : String × Value :=
  let javadoc := Value.ofString? (Tree.docOf t.anyJavadoc?)
  (t.nameOrEmpty, .map [("name", .string t.nameOrEmpty), ("javadoc", javadoc),
    ("comment", javadoc), ("value", (t.literal?.map Tree.scalar).getD .null)])

/-- The entry of a method of the service that `owner` is. -/
def methodEntry (owner : Option Tree) (t : Tree) : String × Value :=
  (t.nameOrEmpty, .map (Dict.extend
    (Build.methodMembers ((owner.bind Tree.name?).getD "") t) (noted t.children)))

def commandEntry (owner : Option Tree) (t : Tree) : String × Value :=
  (t.nameOrEmpty, .map (Dict.extend
    (Build.commandMembers ((owner.bind Tree.name?).getD "") t) (noted t.children)))

/-- The children of the bodies of one kind among some trees. -/
def inside (body : NodeKind) (ts : List Tree) : List Tree :=
  (ts.filter (Tree.isNode body)).flatMap Tree.children

/-- The constructs that note their annotations. -/
def annotatable : List NodeKind :=
  [.api, .entity, .input, .output, .event, .field, .enumeration, .service, .serviceMethod,
    .aggregate, .aggregateCommand]

/-- What the construct `t` holds of the trees `ts` inside it, annotations left out. -/
def content (t : Tree) (kind : NodeKind) (ts : List Tree) : Members :=
  match kind with
  | .api => [("config", entriesOf .apiConfig Build.settingEntry ts)]
  | .plugin =>
    [("config", entriesOf .pluginConfigOption Build.settingEntry ts),
      ("cliOptions", entriesOf .pluginCliOption Build.cliOptionEntry ts)]
  | .entity | .input | .output | .event =>
    [("fields", entriesOf .field fieldEntry (inside .declBody ts))]
  | .nestedField => [("fields", entriesOf .field fieldEntry ts)]
  | .field => checks t ts
  | .enumeration =>
    let values := (inside .enumBody ts).filter (Tree.isNode .enumValue)
    [("hasValue", .bool (values.any (·.literal?.isSome))),
      ("values", .map (Dict.ofList (values.map enumValueEntry)))]
  | .service => [("methods", entriesOf .serviceMethod (methodEntry (some t)) ts)]
  | .aggregate => [("commands", entriesOf .aggregateCommand (commandEntry (some t)) ts)]
  | _ => []

/-- What the construct `t` holds of the trees `ts` inside it. -/
def slotsOf (t : Tree) (kind : NodeKind) (ts : List Tree) : Members :=
  (if annotatable.contains kind then noted ts else []) ++ content t kind ts

/-- What a construct holds. -/
def slots (kind : NodeKind) (t : Tree) : Members := slotsOf t kind t.children

/-! ### What a construct is -/

/-- The construct in which another one stands, as far as that matters: its path, and the
collection in which it will be found. -/
structure Home where
  path : String
  collection : Collection

/-- A scope at home there, with some options. -/
def Home.scope (home : Home) (options : Members) : Scope where
  kind := .field
  path := home.path
  node := [("options", .map options)]
  place := ⟨home.collection, none, ""⟩

/-- How a construct that other constructs belong to begins. -/
def opening (input : BuildInput) (home : Option Home) (parent : Option Tree) (kind : NodeKind)
    (t : Tree) : Option Opening :=
  match kind with
  | .api => some (Build.api input t)
  | .plugin => some (Build.plugin input t)
  | .entity => some (Build.declaration input .entities t)
  | .input => some (Build.declaration input .inputs t)
  | .output => some (Build.declaration input .outputs t)
  | .event => some (Build.declaration input .events t)
  | .enumeration => some (Build.enumeration input t)
  | .service => some (Build.service input t)
  | .legacyService => some (Build.legacyService input t)
  | .aggregate => some (Build.aggregate input t)
  | .field => home.map fun home => Build.field input (home.scope []) t
  | .nestedField => do
    let owner ← parent
    let home ← home
    return Build.nestedField input (home.scope (Dict.ofList (notesIn owner.children))) owner t
  | .serviceMethod => home.map fun home => Build.serviceMethod input (home.scope []) parent t
  | .aggregateCommand =>
    home.map fun home => Build.aggregateCommand input (home.scope []) parent t
  | _ => none

/-- A block opens its scope behind a field, where that stands. -/
theorem opening_block {input : BuildInput} {home : Option Home} {parent : Option Tree} {t : Tree}
    {o : Opening} (h : opening input home parent .nestedField t = some o) :
    ∃ owner place, parent = some owner ∧ home = some place ∧
      o = Build.nestedField input (place.scope (Dict.ofList (notesIn owner.children))) owner t := by
  obtain ⟨owner, hparent, h⟩ := Option.bind_eq_some_iff.mp h
  obtain ⟨place, hhome, h⟩ := Option.bind_eq_some_iff.mp h
  exact ⟨owner, place, hparent, hhome, (Option.some.inj h).symm⟩

/-- The node of a construct that is complete. -/
def finished (o : Opening) (kind : NodeKind) (t : Tree) : Value :=
  .map (Dict.extend o.scope.node (slots kind t))

/-- A name and its value in a collection, with nothing in between. -/
def entered (c : Collection) (entry : String × Value) : List Change :=
  [.reserved c entry.1, .stored c entry.1 entry.2]

/-- What is added by a part that nothing belongs to. -/
def single (input : BuildInput) (parent : Option Tree) (kind : NodeKind) (t : Tree) :
    List Change :=
  match kind with
  | .globalJavadoc => t.word?.toList.map fun comment => .commented (onText Text.docText comment)
  | .legacyConstant => entered .constants (Build.constantEntry t)
  | .importStatement => t.literal?.toList.map fun literal => .imported (.string literal.bareText)
  | .configOption => entered .config (Build.settingEntry t)
  | .policy => entered .policies (Build.policyEntry (parent.filter (Tree.isNode .policies)) t)
  | .relationship =>
    let r := Build.relation input (parent.filter (Tree.isNode .relationshipGroup)) t
    [.recorded r.records, .related r]
  | _ => []

def reservation (place : Place) : List Change :=
  if place.slot.isNone then [.reserved place.collection place.name] else []

def storage (place : Place) (value : Value) : List Change :=
  if place.slot.isNone then [.stored place.collection place.name value] else []

mutual

/-- What a tree adds, from front to back. -/
def changes (input : BuildInput) (home : Option Home) (parent : Option Tree) : Tree → List Change
  | .leaf _ => []
  | .node kind children =>
    let here : Tree := .node kind children
    match opening input home parent kind here with
    | some o =>
      let inner : Home := ⟨o.scope.path, o.scope.place.collection⟩
      .recorded o.records :: reservation o.scope.place ++
        changesOfAll input (some inner) (some here) children ++
        storage o.scope.place (finished o kind here)
    | none => single input parent kind here ++ changesOfAll input home (some here) children

def changesOfAll (input : BuildInput) (home : Option Home) (parent : Option Tree) :
    List Tree → List Change
  | [] => []
  | t :: ts => changes input home parent t ++ changesOfAll input home parent ts

end

theorem changesOfAll_eq (input : BuildInput) (home : Option Home) (parent : Option Tree)
    (ts : List Tree) : changesOfAll input home parent ts = ts.flatMap (changes input home parent) := by
  induction ts with
  | nil => rfl
  | cons t ts ih => rw [changesOfAll, ih, List.flatMap_cons]

/-- What is made of a tree. -/
def draft (input : BuildInput) (t : Tree) : Draft :=
  (changes input none none t).foldl Draft.change {}

/-! ### Where the stored constructs stand -/

/-- The collection in which a construct is stored, when it stands in a declaration of the
collection `within`. -/
def collectionOf (within : Option Collection) : NodeKind → Option Collection
  | .legacyConstant => some .constants
  | .configOption => some .config
  | .api => some .apis
  | .plugin => some .plugins
  | .policy => some .policies
  | .entity => some .entities
  | .input => some .inputs
  | .output => some .outputs
  | .event => some .events
  | .enumeration => some .enums
  | .service | .legacyService => some .services
  | .aggregate => some .aggregates
  | .nestedField => within
  | _ => none

/-- A construct that is stored in a collection, and what it stands in. -/
structure Site where
  collection : Collection
  parent : Option Tree
  kind : NodeKind
  node : Tree

namespace Site

/-- The name under which a construct is stored; a block of fields has that of the type it
declares. -/
def name (s : Site) : String :=
  match s.kind with
  | .nestedField => (((s.parent.bind (·.child? .fieldType)).bind Tree.identifier?).getD "")
  | _ => s.node.nameOrEmpty

/-- The value that is stored. -/
def value (input : BuildInput) (s : Site) : Value :=
  match opening input (some ⟨"", s.collection⟩) s.parent s.kind s.node with
  | some o => finished o s.kind s.node
  | none =>
    match s.kind with
    | .legacyConstant => (Build.constantEntry s.node).2
    | .configOption => (Build.settingEntry s.node).2
    | _ => (Build.policyEntry (s.parent.filter (Tree.isNode .policies)) s.node).2

end Site

def siteOf (within : Option Collection) (parent : Option Tree) (kind : NodeKind) (t : Tree) :
    List Site :=
  (collectionOf within kind).toList.map fun c => ⟨c, parent, kind, t⟩

mutual

/-- The stored constructs of a tree, each in front of those inside it. -/
def sitesBefore (within : Option Collection) (parent : Option Tree) : Tree → List Site
  | .leaf _ => []
  | .node kind children =>
    let here : Tree := .node kind children
    siteOf within parent kind here ++
      sitesBeforeAll ((collectionOf within kind).or within) (some here) children

def sitesBeforeAll (within : Option Collection) (parent : Option Tree) : List Tree → List Site
  | [] => []
  | t :: ts => sitesBefore within parent t ++ sitesBeforeAll within parent ts

end

mutual

/-- The stored constructs of a tree, each behind those inside it. -/
def sitesAfter (within : Option Collection) (parent : Option Tree) : Tree → List Site
  | .leaf _ => []
  | .node kind children =>
    let here : Tree := .node kind children
    sitesAfterAll ((collectionOf within kind).or within) (some here) children ++
      siteOf within parent kind here

def sitesAfterAll (within : Option Collection) (parent : Option Tree) : List Tree → List Site
  | [] => []
  | t :: ts => sitesAfter within parent t ++ sitesAfterAll within parent ts

end

theorem sitesBeforeAll_eq (within : Option Collection) (parent : Option Tree) (ts : List Tree) :
    sitesBeforeAll within parent ts = ts.flatMap (sitesBefore within parent) := by
  induction ts with
  | nil => rfl
  | cons t ts ih => rw [sitesBeforeAll, ih, List.flatMap_cons]

theorem sitesAfterAll_eq (within : Option Collection) (parent : Option Tree) (ts : List Tree) :
    sitesAfterAll within parent ts = ts.flatMap (sitesAfter within parent) := by
  induction ts with
  | nil => rfl
  | cons t ts ih => rw [sitesAfterAll, ih, List.flatMap_cons]

/-- The names that a tree declares in a collection, in the order in which they are met. -/
def names (c : Collection) (t : Tree) : List String :=
  ((sitesBefore none none t).filter (·.collection = c)).map Site.name

/-- The entries that a tree makes in a collection, in the order in which they are completed. -/
def entries (input : BuildInput) (c : Collection) (t : Tree) : List (String × Value) :=
  ((sitesAfter none none t).filter (·.collection = c)).map fun s => (s.name, s.value input)

/-! ### The document -/

mutual

/-- What is picked from the nodes of a tree, each in front of those inside it. -/
def found {α : Type} (pick : Option Tree → NodeKind → Tree → List α) (parent : Option Tree) :
    Tree → List α
  | .leaf _ => []
  | .node kind children =>
    pick parent kind (.node kind children) ++ foundAll pick (some (.node kind children)) children

def foundAll {α : Type} (pick : Option Tree → NodeKind → Tree → List α) (parent : Option Tree) :
    List Tree → List α
  | [] => []
  | t :: ts => found pick parent t ++ foundAll pick parent ts

end

theorem foundAll_eq {α : Type} (pick : Option Tree → NodeKind → Tree → List α)
    (parent : Option Tree) (ts : List Tree) :
    foundAll pick parent ts = ts.flatMap (found pick parent) := by
  induction ts with
  | nil => rfl
  | cons t ts ih => rw [foundAll, ih, List.flatMap_cons]

def importsOf (_ : Option Tree) (kind : NodeKind) (t : Tree) : List Value :=
  match kind with
  | .importStatement => t.literal?.toList.map fun literal => .string literal.bareText
  | _ => []

def commentsOf (_ : Option Tree) (kind : NodeKind) (t : Tree) : List String :=
  match kind with
  | .globalJavadoc => t.word?.toList.map (onText Text.docText)
  | _ => []

def relationsOf (input : BuildInput) (parent : Option Tree) (kind : NodeKind) (t : Tree) :
    List Build.Relation :=
  match kind with
  | .relationship => [Build.relation input (parent.filter (Tree.isNode .relationshipGroup)) t]
  | _ => []

/-- A collection of a tree: its names in the order in which they are met, each with the
node that was completed last under it. -/
def collection (input : BuildInput) (t : Tree) (c : Collection) : Members :=
  match c with
  | .relationships => (found (relationsOf input) none t).foldl Members.relate []
  | c => Dict.arrange (names c t) (entries input c t)

/-- The document of a tree. -/
def document (input : BuildInput) (t : Tree) : Document where
  imports := found importsOf none t
  config := collection input t .config
  apis := collection input t .apis
  plugins := collection input t .plugins
  policies := collection input t .policies
  aggregates := collection input t .aggregates
  entities := collection input t .entities
  enums := collection input t .enums
  relationships := collection input t .relationships
  services := collection input t .services
  inputs := collection input t .inputs
  outputs := collection input t .outputs
  events := collection input t .events
  constants := collection input t .constants
  javadoc := (found commentsOf none t).getLast?

/-! ### Members of a construct -/

/-- A slot of a construct that keeps nodes of one kind by name. -/
structure MemberSlot where
  slot : String
  kind : NodeKind
  entry : Tree → String × Value

/-- The slots of a construct that keep what stands in its body. -/
def memberSlots (t : Tree) : NodeKind → List MemberSlot
  | .api => [⟨"config", .apiConfig, Build.settingEntry⟩]
  | .plugin =>
    [⟨"config", .pluginConfigOption, Build.settingEntry⟩,
      ⟨"cliOptions", .pluginCliOption, Build.cliOptionEntry⟩]
  | .entity | .input | .output | .event | .nestedField => [⟨"fields", .field, fieldEntry⟩]
  | .enumeration => [⟨"values", .enumValue, enumValueEntry⟩]
  | .service => [⟨"methods", .serviceMethod, methodEntry (some t)⟩]
  | .aggregate => [⟨"commands", .aggregateCommand, commandEntry (some t)⟩]
  | _ => []

/-- What stands in a construct itself: in its body, if it has one of its own. -/
def ownBody (t : Tree) : NodeKind → List Tree
  | .entity | .input | .output | .event => ((t.child? .declBody).map Tree.children).getD []
  | .enumeration => ((t.child? .enumBody).map Tree.children).getD []
  | _ => t.children

/-- The members of one kind, in the order in which they are written. -/
def members (t : Tree) (kind : NodeKind) (m : MemberSlot) : List Tree :=
  (ownBody t kind).filter (Tree.isNode m.kind)

end Direct

end DomainModel
