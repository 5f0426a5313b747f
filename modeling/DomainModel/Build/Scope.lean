/-
Nodes under construction.

While a document is built, the constructs that are open form a stack of scopes.  A scope
holds the node made so far, the path it will have and the place where it goes when it is
closed.  A construct is closed by naming its kind, and only the one on top can be: any
other order is a `Fault`.
-/
import DomainModel.Model.Document
import DomainModel.Value.Path

namespace DomainModel

/-- Kinds of open constructs. -/
inductive ScopeKind where
  | api
  | plugin
  | declaration
  | enumeration
  | field
  | nestedField
  | service
  | legacyService
  | aggregate
  | method
  | command
  deriving DecidableEq, Repr, Inhabited

namespace ScopeKind

def all : List ScopeKind :=
  [.api, .plugin, .declaration, .enumeration, .field, .nestedField, .service, .legacyService,
    .aggregate, .method, .command]

def label : ScopeKind → String
  | api => "Api"
  | plugin => "Plugin"
  | declaration => "Declaration"
  | enumeration => "Enum"
  | field => "Field"
  | nestedField => "NestedField"
  | service => "Service"
  | legacyService => "LegacyService"
  | aggregate => "Aggregate"
  | method => "Method"
  | command => "Command"

end ScopeKind

/-- Where a finished node goes: under its name, into a collection of the document or into
a mapping of the node that is open below it. -/
structure Place where
  collection : Collection
  slot : Option String
  name : String
  deriving DecidableEq, Repr, Inhabited

structure Scope where
  kind : ScopeKind
  path : String
  node : Members
  place : Place
  deriving Inhabited

namespace Scope

/-- The first step of the scope's path. -/
def collectionKey (f : Scope) : String := Path.head f.path

/-- The mapping at a key; what is no mapping counts as an empty one. -/
def mapAt (f : Scope) (key : String) : Members :=
  ((Dict.get? f.node key).bind Value.map?).getD []

/-- The list at a key; what is no list counts as an empty one. -/
def listAt (f : Scope) (key : String) : List Value :=
  ((Dict.get? f.node key).bind Value.list?).getD []

/-- Changes the mapping at a key. -/
def updateMap (f : Scope) (key : String) (g : Members → Members) : Scope :=
  { f with node := Dict.insert key (.map (g (f.mapAt key))) f.node }

/-- Appends to the list at a key. -/
def push (f : Scope) (key : String) (v : Value) : Scope :=
  { f with node := Dict.insert key (.list (f.listAt key ++ [v])) f.node }

end Scope

/-- What goes wrong when constructs do not nest as they have to. -/
inductive Fault where
  | nothingOpen (closing : ScopeKind)
  | otherOpen (closing opened : ScopeKind) (path : String)
  | misplaced (what : String) (opened : ScopeKind) (path : String)
  | unplaced (what : String)
  | ownerless (path : String)
  | parentless (closing : ScopeKind) (path : String)
  | leftOpen (opened : ScopeKind) (path : String)
  deriving DecidableEq, Repr

def Fault.message : Fault → String
  | nothingOpen closing => "exit of " ++ closing.label ++ " with no open frame"
  | otherOpen closing opened path =>
    "exit of " ++ closing.label ++ " while " ++ opened.label ++ " `" ++ path ++ "` is open"
  | misplaced what opened path => what ++ " inside " ++ opened.label ++ " `" ++ path ++ "`"
  | unplaced what => what ++ " outside of any scope"
  | ownerless path => "nested field without an owning field at " ++ path
  | parentless closing path => closing.label ++ " `" ++ path ++ "` has no parent frame"
  | leftOpen opened path => "unclosed " ++ opened.label ++ " `" ++ path ++ "` at end of input"

/-- Open scopes, the innermost first. -/
abbrev Scopes := List Scope

namespace Scopes

/-- Takes the innermost scope off, which has to be of this kind; it is gone either way. -/
def pop (kind : ScopeKind) : Scopes → Except Fault Scope × Scopes
  | [] => (.error (.nothingOpen kind), [])
  | f :: rest =>
    (if f.kind = kind then .ok f else .error (.otherOpen kind f.kind f.path), rest)

/-- Changes the innermost scope, if there is one. -/
def modifyTop (g : Scope → Scope) : Scopes → Scopes
  | [] => []
  | f :: rest => g f :: rest

/-- The innermost scope, which has to be of one of these kinds. -/
def owner (kinds : List ScopeKind) (what : String) : Scopes → Except Fault Scope
  | [] => .error (.unplaced what)
  | f :: _ => if kinds.contains f.kind then .ok f else .error (.misplaced what f.kind f.path)

end Scopes

end DomainModel
