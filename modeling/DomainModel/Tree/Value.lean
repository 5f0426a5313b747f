/-
Values written in a source text.

A literal that is no value of its kind stands for its own text, so reading a value never
fails.  Where a pair has no value and where an option has no argument, the value is true.
-/
import DomainModel.Tree.View
import DomainModel.Value.Literal

namespace DomainModel.Tree

/-- The value of a literal's token. -/
def scalarOf (children : List Tree) : Value :=
  match (children.filterMap token?).find? (·.kind.isLiteral) with
  | none => .null
  | some t =>
    match Literal.parse t.kind t.text with
    | .ok v => v
    | .error _ => .string t.text

/-- A literal as plain text, quotes removed. -/
def bareTextOf (children : List Tree) : String :=
  match (children.filterMap token?).find? (·.kind.isLiteral) with
  | none => ""
  | some t =>
    if t.kind = .string then String.ofList (Literal.unquote t.text.toList) else t.text

def scalar (t : Tree) : Value := scalarOf t.children

def bareText (t : Tree) : String := bareTextOf t.children

mutual

/-- The value that a tree stands for, if it is a literal, an object or an array. -/
def value? : Tree → Option Value
  | .node .literal children => some (scalarOf children)
  | .node .object children => some (.map (Dict.ofList (pairsIn children)))
  | .node .array children => some (.list (valuesIn children))
  | _ => none

/-- The values among some trees. -/
def valuesIn : List Tree → List Value
  | [] => []
  | t :: ts =>
    match value? t with
    | some v => v :: valuesIn ts
    | none => valuesIn ts

/-- The pairs with a key among some trees, in order. -/
def pairsIn : List Tree → List (String × Value)
  | [] => []
  | .node .pair children :: ts =>
    match keyed children with
    | some entry => entry :: pairsIn ts
    | none => pairsIn ts
  | _ :: ts => pairsIn ts

/-- The key and the value of a pair: the first node has to be a literal. -/
def keyed : List Tree → Option (String × Value)
  | [] => none
  | .leaf _ :: ts => keyed ts
  | .node .literal key :: ts => some (bareTextOf key, pairedValue ts)
  | .node _ _ :: _ => none

/-- The value behind a key: that of the next node, or true. -/
def pairedValue : List Tree → Value
  | [] => .bool true
  | .leaf _ :: ts => pairedValue ts
  | .node kind children :: _ => (value? (.node kind children)).getD (.bool true)

end

/-- The value of an option whose brackets may be missing. -/
def complexValue (t : Tree) : Value :=
  match t.children.findSome? value? with
  | some v => v
  | none =>
    match t.child? .arrayPlain with
    | some array => .list ((array.childrenOf .literal).map scalar)
    | none =>
      match t.child? .pairs with
      | some pairs => .map (Dict.ofList (pairsIn pairs.children))
      | none => .bool true

/-- The argument of an annotation or of a setting. -/
def argumentNode? (t : Tree) : Option Tree := t.child? .complexValue

/-- The value of an annotation; one without an argument is true. -/
def annotationValue (t : Tree) : Value := (t.argumentNode?.map complexValue).getD (.bool true)

/-- The value of a setting; one without a value is null. -/
def settingValue (t : Tree) : Value := (t.argumentNode?.map complexValue).getD .null

end DomainModel.Tree
