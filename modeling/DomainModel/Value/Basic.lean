/-
Values of a document.

A `Value` is a scalar, a list or an ordered mapping.  `Value.same` is the equality that
queries use: decimals are compared as numbers and mappings without regard to order, but
an integer is never the same as a decimal.  `Value.text` is the plain rendering shown to
people, with strings bare.
-/
import DomainModel.Value.Dict
import DomainModel.Value.Decimal

namespace DomainModel

inductive Value where
  | null
  | bool (b : Bool)
  | int (n : Int)
  | decimal (d : Decimal)
  | string (s : String)
  | list (items : List Value)
  | map (entries : List (String × Value))
  deriving Inhabited

/-- The entries of a mapping value. -/
abbrev Members := Dict Value

namespace Value

def emptyMap : Value := .map []

def emptyList : Value := .list []

def isNull : Value → Bool
  | .null => true
  | _ => false

/-- Only the boolean counts as true. -/
def isTrue : Value → Bool
  | .bool b => b
  | _ => false

def string? : Value → Option String
  | .string s => some s
  | _ => none

def bool? : Value → Option Bool
  | .bool b => some b
  | _ => none

def int? : Value → Option Int
  | .int n => some n
  | _ => none

/-- Integers are decimals without places. -/
def decimal? : Value → Option Decimal
  | .decimal d => some d
  | .int n => some (.ofInt n)
  | _ => none

def list? : Value → Option (List Value)
  | .list items => some items
  | _ => none

def map? : Value → Option Members
  | .map entries => some entries
  | _ => none

/-- The value at a key of a mapping. -/
def get? (v : Value) (key : String) : Option Value := v.map?.bind (Dict.get? · key)

/-- The string at a key of a mapping. -/
def getString? (v : Value) (key : String) : Option String := (v.get? key).bind string?

/-- The entries of the mapping at a key; none where no mapping stands. -/
def entriesAt (v : Value) (key : String) : Members := ((v.get? key).bind map?).getD []

/-- The members of the list at a key; none where no list stands. -/
def itemsAt (v : Value) (key : String) : List Value := ((v.get? key).bind list?).getD []

theorem entriesAt_eq {v : Value} {key : String} {entries : Members}
    (h : v.get? key = some (.map entries)) : v.entriesAt key = entries := by
  rw [entriesAt, h, Option.bind_some, map?, Option.getD_some]

theorem itemsAt_eq {v : Value} {key : String} {items : List Value}
    (h : v.get? key = some (.list items)) : v.itemsAt key = items := by
  rw [itemsAt, h, Option.bind_some, list?, Option.getD_some]

/-- The members of a list or a mapping, in order. -/
def children : Value → List Value
  | .list items => items
  | .map entries => Dict.values entries
  | _ => []

/-- A string, or null where there is none. -/
def ofString? (s : Option String) : Value := (s.map string).getD .null

mutual

def same : Value → Value → Bool
  | .null, .null => true
  | .bool a, .bool b => a == b
  | .int m, .int n => m == n
  | .decimal a, .decimal b => a.same b
  | .string s, .string t => s == t
  | .list items, .list others => sameItems items others
  | .map entries, .map others => entries.length == others.length && sameEntries entries others
  | _, _ => false

def sameItems : List Value → List Value → Bool
  | [], [] => true
  | v :: vs, w :: ws => same v w && sameItems vs ws
  | _, _ => false

/-- Does the other mapping hold the same value at every key? -/
def sameEntries : List (String × Value) → Members → Bool
  | [], _ => true
  | (key, v) :: rest, others =>
    (match Dict.get? others key with
      | some w => same v w
      | none => false) && sameEntries rest others

end

mutual

def text : Value → String
  | .null => "null"
  | .bool b => if b then "true" else "false"
  | .int n => toString n
  | .decimal d => d.text
  | .string s => s
  | .list items => "[" ++ textItems items ++ "]"
  | .map entries => "\x7b" ++ textEntries entries ++ "\x7d"

def textItems : List Value → String
  | [] => ""
  | [v] => text v
  | v :: vs => text v ++ ", " ++ textItems vs

def textEntries : List (String × Value) → String
  | [] => ""
  | [(key, v)] => key ++ ": " ++ text v
  | (key, v) :: rest => key ++ ": " ++ text v ++ ", " ++ textEntries rest

end

end Value

end DomainModel
