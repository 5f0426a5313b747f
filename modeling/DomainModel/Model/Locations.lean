/-
Where the parts of a document were written.

Every path of a document that was written somewhere has a span.  Recording a path again
moves it: the new span counts, and it counts as the latest, but the path keeps its place
in the order of the index.  A position belongs to the narrowest span around it, and of
equally narrow ones to the one recorded last.
-/
import DomainModel.Value.Dict
import DomainModel.Source.Lines

namespace DomainModel

/-- A span and the turn at which it was recorded. -/
structure Locations.Entry where
  span : Span
  turn : Nat
  deriving DecidableEq, Repr

structure Locations where
  entries : Dict Locations.Entry := []
  turns : Nat := 0

namespace Locations

def empty : Locations := {}

def record (index : Locations) (path : String) (span : Span) : Locations :=
  ⟨Dict.insert path ⟨span, index.turns⟩ index.entries, index.turns + 1⟩

def get? (index : Locations) (path : String) : Option Span :=
  (Dict.get? index.entries path).map (·.span)

/-- The paths with their spans, in the order in which they were first recorded. -/
def toList (index : Locations) : List (String × Span) :=
  index.entries.map fun (path, r) => (path, r.span)

def size (index : Locations) : Nat := index.entries.length

def isEmpty (index : Locations) : Bool := index.entries.isEmpty

/-- Is `r` to be preferred to `s`: narrower, or as narrow and later? -/
def Entry.precedes (r s : Entry) : Bool :=
  r.span.length < s.span.length || (r.span.length == s.span.length && s.turn < r.turn)

/-- The better of the best entry so far and another one. -/
def better (best : Option (String × Entry)) (entry : String × Entry) :
    Option (String × Entry) :=
  match best with
  | none => some entry
  | some b => if entry.2.precedes b.2 then some entry else some b

/-- The path that a position belongs to. -/
def resolve (index : Locations) (p : Position) : Option String :=
  ((index.entries.filter fun e => e.2.span.contains p).foldl better none).map (·.1)

end Locations

end DomainModel
