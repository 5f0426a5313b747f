/-
Models.

A model is a document together with what is known about it: where its parts were written,
which problems were found, and, once it has been classified, which names it declares.
Queries go to the document; a value that is null counts as missing.
-/
import DomainModel.Model.Locations
import DomainModel.Model.Problem
import DomainModel.Model.Symbols
import DomainModel.Value.Path

namespace DomainModel

structure Model where
  document : Document := .empty
  locations : Locations := .empty
  problems : List Problem := []
  symbols : Option SymbolTable := none

namespace Model

def value (m : Model) : Value := m.document.toValue

/-- The value at a path, unless it is null. -/
def get? (m : Model) (path : String) : Option Value :=
  (m.value.lookup? path).filter (!·.isNull)

def getD (m : Model) (path : String) (default : Value) : Value := (m.get? path).getD default

def getString? (m : Model) (path : String) : Option String := (m.get? path).bind Value.string?

/-- The matches of a pattern with their paths. -/
def select (m : Model) (pattern : String) : List (String × Value) := m.value.select pattern

def selected (m : Model) (pattern : String) : List Value := (m.select pattern).map (·.2)

/-- Keeps the first of several values that are the same, and no null. -/
def unique (values : List Value) : List Value :=
  values.foldl (fun kept v => if v.isNull || kept.any (·.same v) then kept else kept ++ [v]) []

def distinct (m : Model) (pattern : String) : List Value := unique (m.selected pattern)

/-- A mapping at the top of the document. -/
def topMapping? (m : Model) (key : String) : Option Members :=
  (m.value.get? key).bind Value.map?

def location? (m : Model) (path : String) : Option Span := m.locations.get? path

def locate (m : Model) (path : String) (span : Span) : Model :=
  { m with locations := m.locations.record path span }

/-- The innermost path at a position. -/
def resolve (m : Model) (p : Position) : Option String := m.locations.resolve p

/-- Adds a problem, at the place recorded for its path. -/
def report (m : Model) (code path : String) (value : Option String) (template : String) :
    Model :=
  { m with problems := m.problems ++
      [.ofTemplate code path value template (m.location? path)] }

def withoutProblems (m : Model) : Model := { m with problems := [] }

/-- The document with the locations and the problems as members of their own. -/
def toValue (m : Model) : Value :=
  .map (m.document.entries ++
    [("locations", .map (m.locations.toList.map fun (path, span) => (path, span.toRow))),
      ("problems", .list (m.problems.map Problem.toListed))])

/-- The export of `toValue`, laid out over lines. -/
def toJson (m : Model) : String := m.toValue.toPrettyJson

end Model

end DomainModel
