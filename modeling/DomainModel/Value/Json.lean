/-
Values as JSON text.

Two layouts of the same content: `compact` puts nothing between the parts, `pretty`
gives every member a line of its own, two blanks deeper than its container.  A decimal
is written as a string, which keeps its scale.  Only quotes, backslashes and control
characters are escaped.
-/
import DomainModel.Value.Basic

namespace DomainModel.Json

/-- A character inside a JSON string. -/
def escape (c : Char) : List Char :=
  if c = '"' then ['\\', '"']
  else if c = '\\' then ['\\', '\\']
  else if c = '\n' then ['\\', 'n']
  else if c = '\r' then ['\\', 'r']
  else if c = '\t' then ['\\', 't']
  else if c = '\x08' then ['\\', 'b']
  else if c = '\x0c' then ['\\', 'f']
  else if c.toNat < 0x20 then
    ['\\', 'u', '0', '0', Nat.digitChar (c.toNat / 16), Nat.digitChar (c.toNat % 16)]
  else [c]

def quoted (s : String) : List Char := '"' :: s.toList.flatMap escape ++ ['"']

/-- A value that has no parts; containers are written elsewhere. -/
def scalar : Value → List Char
  | .bool true => "true".toList
  | .bool false => "false".toList
  | .int n => (toString n).toList
  | .decimal d => quoted d.text
  | .string s => quoted s
  | _ => "null".toList

mutual

def compact : Value → List Char
  | .list items => '[' :: compactItems items ++ [']']
  | .map entries => '\x7b' :: compactEntries entries ++ ['\x7d']
  | v => scalar v

def compactItems : List Value → List Char
  | [] => []
  | [v] => compact v
  | v :: vs => compact v ++ ',' :: compactItems vs

def compactEntries : List (String × Value) → List Char
  | [] => []
  | [(key, v)] => quoted key ++ ':' :: compact v
  | (key, v) :: rest => quoted key ++ ':' :: compact v ++ ',' :: compactEntries rest

end

/-- A new line at the given depth. -/
def newLine (depth : Nat) : List Char := '\n' :: List.replicate (2 * depth) ' '

mutual

def pretty (depth : Nat) : Value → List Char
  | .list [] => ['[', ']']
  | .list items => '[' :: prettyItems (depth + 1) items ++ newLine depth ++ [']']
  | .map [] => ['\x7b', '\x7d']
  | .map entries => '\x7b' :: prettyEntries (depth + 1) entries ++ newLine depth ++ ['\x7d']
  | v => scalar v

def prettyItems (depth : Nat) : List Value → List Char
  | [] => []
  | [v] => newLine depth ++ pretty depth v
  | v :: vs => newLine depth ++ pretty depth v ++ ',' :: prettyItems depth vs

def prettyEntries (depth : Nat) : List (String × Value) → List Char
  | [] => []
  | [(key, v)] => newLine depth ++ quoted key ++ ':' :: ' ' :: pretty depth v
  | (key, v) :: rest =>
    newLine depth ++ quoted key ++ ':' :: ' ' :: pretty depth v ++ ',' :: prettyEntries depth rest

end

end DomainModel.Json

namespace DomainModel.Value

/-- JSON without white space. -/
def toJson (v : Value) : String := String.ofList (Json.compact v)

/-- JSON laid out over lines. -/
def toPrettyJson (v : Value) : String := String.ofList (Json.pretty 0 v)

end DomainModel.Value
