/-
Paths into a value.

A path names one node: keys and list indices with dots between them.  A pattern may name
many: `*` stands for any one step and two dots for any number of steps, none included.
`lookup?` and `update?` follow a path; `select` runs a pattern and gives every match with
the path that leads to it.
-/
import DomainModel.Value.Literal
import DomainModel.Text.Blank

namespace DomainModel

namespace Path

/-- The steps of a path; the empty path has none. -/
def steps (path : String) : List String :=
  if path.isEmpty then [] else (Text.splitOn '.' path.toList).map String.ofList

/-- The step `key` beyond the path `base`. -/
def join (base key : String) : String := if base.isEmpty then key else base ++ "." ++ key

/-- The first step of a path. -/
def head (path : String) : String :=
  String.ofList (path.toList.takeWhile (· != '.'))

/-- The greatest number of 64 bits without a sign. -/
def maxIndex : Nat := 18446744073709551615

/-- List indices are digits, a plus sign allowed, and fit in 64 bits. -/
def index? (key : String) : Option Nat :=
  (Literal.natural? (Text.dropLead ['+'] key.toList)).filter (· ≤ maxIndex)

end Path

namespace Value

/-- The member that one step leads to. -/
def step? (v : Value) (key : String) : Option Value :=
  match v with
  | .map entries => Dict.get? entries key
  | .list items => (Path.index? key).bind (items[·]?)
  | _ => none

def follow? (v : Value) : List String → Option Value
  | [] => some v
  | key :: rest => (v.step? key).bind (follow? · rest)

/-- The node at a path. -/
def lookup? (v : Value) (path : String) : Option Value := v.follow? (Path.steps path)

/-- The value with `w` in the place that the steps lead to, if they lead to one. -/
def replace? (v w : Value) : List String → Option Value
  | [] => some w
  | key :: rest => do
    let old ← v.step? key
    let new ← replace? old w rest
    match v with
    | .map entries => some (.map (Dict.modify key (fun _ => new) entries))
    | .list items => (Path.index? key).map fun i => .list (items.set i new)
    | _ => none

/-- The value with `w` at a path, if there is a node at the path. -/
def update? (v : Value) (path : String) (w : Value) : Option Value :=
  v.replace? w (Path.steps path)

/-- The members of a value with the step that leads to each. -/
def steppedChildren : Value → List (String × Value)
  | .map entries => entries
  | .list items => items.zipIdx.map fun (v, i) => (toString i, v)
  | _ => []

end Value

namespace Pattern

/-- A step of a pattern. -/
inductive Step where
  | key (name : String)
  | any
  | descendants
  deriving DecidableEq, Repr

/-- Brackets are another spelling of dots: `[n]` for a step, `[*]` for any step. -/
def unbracket : List Char → List Char
  | '[' :: '*' :: ']' :: cs => '.' :: '*' :: unbracket cs
  | '[' :: cs => '.' :: unbracket cs
  | ']' :: cs => unbracket cs
  | c :: cs => c :: unbracket cs
  | [] => []

/-- The pattern without a leading `$`, brackets, or dots in front that are not two. -/
def normalize (pattern : List Char) : List Char :=
  let plain := unbracket (Text.dropLead ['$'] pattern)
  if "..".toList.isPrefixOf plain then plain else plain.dropWhile (· == '.')

/-- An empty piece between dots means any number of steps; several in a row mean the
same as one. -/
def segmentsOf : List (List Char) → List Step
  | [] => []
  | piece :: pieces =>
    let rest := segmentsOf pieces
    if piece.isEmpty then
      if rest.head? = some .descendants then rest else .descendants :: rest
    else if piece = ['*'] then .any :: rest
    else .key (String.ofList piece) :: rest

def parse (pattern : String) : List Step :=
  let plain := normalize pattern.toList
  if plain.isEmpty then [] else segmentsOf (Text.splitOn '.' plain)

mutual

/-- Runs `f` on a node and on everything below it, a node before what is in it. -/
def descend (f : String → Value → List (String × Value)) (path : String) :
    Value → List (String × Value)
  | .map entries => f path (.map entries) ++ descendEntries f path entries
  | .list items => f path (.list items) ++ descendItems f path 0 items
  | v => f path v

def descendEntries (f : String → Value → List (String × Value)) (path : String) :
    List (String × Value) → List (String × Value)
  | [] => []
  | (key, v) :: rest => descend f (Path.join path key) v ++ descendEntries f path rest

def descendItems (f : String → Value → List (String × Value)) (path : String) (i : Nat) :
    List Value → List (String × Value)
  | [] => []
  | v :: vs => descend f (Path.join path (toString i)) v ++ descendItems f path (i + 1) vs

end

/-- Every match of the segments below `v`, which itself lies at `path`. -/
def selectFrom : List Step → String → Value → List (String × Value)
  | [], path, v => [(path, v)]
  | .key name :: rest, path, v =>
    match v.step? name with
    | some next => selectFrom rest (Path.join path name) next
    | none => []
  | .any :: rest, path, v =>
    v.steppedChildren.flatMap fun (key, next) => selectFrom rest (Path.join path key) next
  | .descendants :: rest, path, v => descend (selectFrom rest) path v

end Pattern

/-- Every node that a pattern matches, with its path. -/
def Value.select (v : Value) (pattern : String) : List (String × Value) :=
  Pattern.selectFrom (Pattern.parse pattern) "" v

end DomainModel
