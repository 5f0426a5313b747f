/-
Values of literal tokens.

A quoted literal loses its quotes and has its escapes resolved; an integer must fit in
64 bits, a decimal must be readable as one; a bare word is a boolean or stands for
itself.
-/
import DomainModel.Value.Basic
import DomainModel.Token.Kind

namespace DomainModel

/-- A literal whose text is no value of its kind. -/
inductive Literal.Error where
  | integerOutOfRange (text : String)
  | invalidDecimal (text : String) (cause : Decimal.Error)
  deriving DecidableEq, Repr

def Literal.Error.message : Literal.Error → String
  | .integerOutOfRange text => "integer literal out of range: " ++ text
  | .invalidDecimal text cause => "invalid decimal literal `" ++ text ++ "`: " ++ cause.message

namespace Literal

/-- Resolves `\n`, `\t`, `\r` and backslashed quotes and backslashes; any other
backslash stands for itself. -/
def unescape : List Char → List Char
  | '\\' :: c :: cs =>
    match c with
    | 'n' => '\n' :: unescape cs
    | 't' => '\t' :: unescape cs
    | 'r' => '\r' :: unescape cs
    | '"' | '\'' | '\\' => c :: unescape cs
    | _ => '\\' :: c :: unescape cs
  | c :: cs => c :: unescape cs
  | [] => []

/-- Drops the opening quote, the closing one if it is there, and resolves escapes.  A
text that does not open with a quote is left alone. -/
def unquote : List Char → List Char
  | [] => []
  | c :: cs =>
    if c = '"' || c = '\'' then
      unescape (if cs.getLast? = some c then cs.dropLast else cs)
    else c :: cs

/-- The number that a row of digits denotes, if there is at least one digit. -/
def natural? (cs : List Char) : Option Nat :=
  if cs.isEmpty || !cs.all Char.isDigit then none
  else some (cs.foldl (fun n c => n * 10 + (c.toNat - '0'.toNat)) 0)

/-- Digits with an optional sign. -/
def integer? : List Char → Option Int
  | '-' :: cs => (natural? cs).map fun n => -(n : Int)
  | '+' :: cs => (natural? cs).map Int.ofNat
  | cs => (natural? cs).map Int.ofNat

/-- The least integer of 64 bits. -/
def minInt : Int := -9223372036854775808

/-- The greatest integer of 64 bits. -/
def maxInt : Int := 9223372036854775807

/-- Integers of 64 bits. -/
def int64? (cs : List Char) : Option Int :=
  (integer? cs).filter fun n => minInt ≤ n && n ≤ maxInt

/-- A bare word is a boolean or stands for itself. -/
def word (text : String) : Value :=
  if text = "true" then .bool true
  else if text = "false" then .bool false
  else .string text

/-- The value of a literal token. -/
def parse (kind : TokenKind) (text : String) : Except Literal.Error Value :=
  match kind with
  | .string => .ok (.string (String.ofList (unquote text.toList)))
  | .integer =>
    match int64? text.toList with
    | some n => .ok (.int n)
    | none => .error (.integerOutOfRange text)
  | .decimal =>
    match Decimal.parse text.toList with
    | .ok d => .ok (.decimal d)
    | .error cause => .error (.invalidDecimal text cause)
  | _ => .ok (word text)

end Literal

end DomainModel
