/-
Declared names.

A `SymbolTable` knows under which kinds a name is declared.  Types of fields are looked up
among entities, enums, inputs and outputs together; there the declaration entered last
decides what the name stands for.
-/
import DomainModel.Model.Document

namespace DomainModel

/-- Kinds of named declarations. -/
inductive SymbolKind where
  | entity
  | enumeration
  | input
  | output
  | event
  | aggregate
  deriving DecidableEq, Repr

namespace SymbolKind

def all : List SymbolKind := [.entity, .enumeration, .input, .output, .event, .aggregate]

/-- The collection that holds declarations of a kind. -/
def collection : SymbolKind → Collection
  | entity => .entities
  | enumeration => .enums
  | input => .inputs
  | output => .outputs
  | event => .events
  | aggregate => .aggregates

/-- The flag that marks a field whose type is of this kind. -/
def flag? : SymbolKind → Option String
  | entity => some "isEntity"
  | enumeration => some "isEnum"
  | input => some "isInput"
  | output => some "isOutput"
  | event => some "isEvent"
  | aggregate => none

/-- May a name of this kind be looked up as a type? -/
def isType : SymbolKind → Bool
  | entity | enumeration | input | output => true
  | _ => false

end SymbolKind

structure SymbolTable where
  /-- Every declared name with its kind, once. -/
  declared : List (SymbolKind × String) := []
  /-- Entities that are marked as aggregates. -/
  aggregateEntities : List String := []
  /-- What each name stands for as a type. -/
  types : Dict SymbolKind := []

namespace SymbolTable

def empty : SymbolTable := {}

def contains (t : SymbolTable) (kind : SymbolKind) (name : String) : Bool :=
  t.declared.contains (kind, name)

def insert (t : SymbolTable) (kind : SymbolKind) (name : String) : SymbolTable :=
  { t with
    declared := if t.contains kind name then t.declared else t.declared ++ [(kind, name)]
    types := if kind.isType then Dict.insert name kind t.types else t.types }

/-- Notes that an entity is an aggregate. -/
def markAggregate (t : SymbolTable) (name : String) : SymbolTable :=
  { t with aggregateEntities := name :: t.aggregateEntities }

/-- Is a declaration marked as an aggregate? -/
def marksAggregate (node : Value) : Bool :=
  ((node.get? "options").bind (·.get? "aggregate")).any Value.isTrue

/-- Enters one declaration of a document. -/
def enter (kind : SymbolKind) (t : SymbolTable) (entry : String × Value) : SymbolTable :=
  let t := t.insert kind entry.1
  if kind = .entity && marksAggregate entry.2 then t.markAggregate entry.1 else t

/-- The declarations of a document, kind by kind. -/
def ofDocument (d : Document) : SymbolTable :=
  SymbolKind.all.foldl (fun t kind => (d.collection kind.collection).foldl (enter kind) t) empty

/-- The kinds under which a name is declared. -/
def kinds (t : SymbolTable) (name : String) : List SymbolKind :=
  SymbolKind.all.filter (t.contains · name)

/-- An aggregate, or an entity marked as one. -/
def isAggregate (t : SymbolTable) (name : String) : Bool :=
  t.contains .aggregate name || t.aggregateEntities.contains name

/-- What a name stands for as a type. -/
def lookup? (t : SymbolTable) (name : String) : Option SymbolKind := Dict.get? t.types name

/-- How many pairs of kind and name are declared. -/
def size (t : SymbolTable) : Nat := t.declared.length

def isEmpty (t : SymbolTable) : Bool := t.declared.isEmpty

end SymbolTable

end DomainModel
