/-
Opening a construct.

What a construct adds to a document is decided when it is met: the spans of its parts and
the scope that collects what stands inside it.  An `Opening` is both together.  The order
of the spans is part of the meaning, since of two equal spans the later one counts.
-/
import DomainModel.Build.Scope
import DomainModel.Name.Naming
import DomainModel.Source.Lines
import DomainModel.Tree.Value

namespace DomainModel

/-- What a document is built with besides the tree. -/
structure BuildInput where
  naming : Naming
  source : List Char

/-- Paths with the spans to record for them; a part that is missing has none. -/
abbrev Records := List (String × Option Span)

structure Opening where
  records : Records
  scope : Scope

namespace BuildInput

/-- The span of a part, if it is there and not empty. -/
def locate (input : BuildInput) (part : Option Tree) : Option Span :=
  (part.bind Tree.range?).map (Source.span input.source)

def locateToken (input : BuildInput) (token : Option Token) : Option Span :=
  token.map fun t => Source.span input.source t.range

end BuildInput

namespace Build

/-- The span from the beginning of one part to the end of another. -/
def coverOf : Option Span → Option Span → Option Span
  | some first, some last => some (first.cover last)
  | _, _ => none

/-- An entry that names itself. -/
def namedEntry (name : String) (v : Value) : Value :=
  .map [("name", .string name), ("value", v)]

/-- A check with its argument; the argument of a pattern loses its quotes. -/
def validationEntry (t : Tree) : Option (String × Value) :=
  t.identifier?.map fun name =>
    let written := t.argument?.getD ""
    let argument := if name = "pattern" then onText Literal.unquote written else written
    (name, namedEntry name (.string argument))

/-- The checks of a field by name. -/
def validationEntries (ts : List Tree) : Members := Dict.ofList (ts.filterMap validationEntry)

def validationRecords (input : BuildInput) (path : String) (ts : List Tree) : Records :=
  ts.filterMap fun t => t.identifier?.map fun name =>
    (path ++ ".validations." ++ name, input.locate (some t))

end Build

end DomainModel
