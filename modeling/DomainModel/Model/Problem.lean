/-
Problems found in a document.

A problem names the path it is about, the value that is wrong there and a code for the
kind of fault.  Its message is made from a template in which the value stands for `%s`.
-/
import DomainModel.Value.Json
import DomainModel.Source.Lines

namespace DomainModel

structure Problem where
  code : String
  path : String
  value : String
  message : String
  location : Option Span
  deriving DecidableEq, Repr

/-- The template with `value` in every place marked by `%s`. -/
def fillTemplate (value : List Char) : List Char → List Char
  | '%' :: 's' :: cs => value ++ fillTemplate value cs
  | c :: cs => c :: fillTemplate value cs
  | [] => []

namespace Problem

/-- A problem whose message is filled in from a template; no value counts as empty. -/
def ofTemplate (code path : String) (value : Option String) (template : String)
    (location : Option Span) : Problem where
  code := code
  path := path
  value := value.getD ""
  message := String.ofList (fillTemplate (value.getD "").toList template.toList)
  location := location

/-- One line of text: place, message, code and path. -/
def text (p : Problem) : String :=
  let place := match p.location with
    | none => ""
    | some s => toString s.start.line ++ ":" ++ toString s.start.column ++ ": "
  place ++ p.message ++ " [" ++ p.code ++ "] at " ++ p.path

end Problem

/-- A position as a mapping. -/
def Position.toValue (p : Position) : Value :=
  .map [("line", .int p.line), ("column", .int p.column)]

/-- A span as a mapping of its two ends. -/
def Span.toValue (s : Span) : Value :=
  .map [("start", s.start.toValue), ("end", s.stop.toValue)]

/-- A span as a row of numbers: bytes first, then lines and columns. -/
def Span.toRow (s : Span) : Value :=
  .list ([s.range.start, s.range.stop, s.start.line, s.start.column, s.stop.line,
    s.stop.column].map fun (n : Nat) => .int n)

namespace Problem

/-- A problem as it is exported on its own. -/
def toValue (p : Problem) : Value :=
  .map [("path", .string p.path), ("value", .string p.value), ("message", .string p.message),
    ("location", (p.location.map Span.toValue).getD .null)]

/-- A problem as it is listed in an exported document. -/
def toListed (p : Problem) : Value :=
  .map [("path", .string p.path), ("location", (p.location.map Span.toRow).getD .null),
    ("value", .string p.value), ("message", .string p.message), ("code", .string p.code)]

end Problem

end DomainModel
