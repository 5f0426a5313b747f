/-
Trees of constructs over tokens.

The leaves of a tree are tokens, white space and comments among them, and `Tree.leaves`
reads them from left to right.  A node holds no place of its own: it lies where its
leaves lie, and `Tree.range?` is the stretch from its first to its last one.  A node
without leaves lies nowhere.
-/
import DomainModel.Token.Basic
import DomainModel.Tree.Kind

namespace DomainModel

inductive Tree where
  | leaf (token : Token)
  | node (kind : NodeKind) (children : List Tree)
  deriving Inhabited

namespace Tree

mutual

/-- The tokens of a tree, from left to right. -/
def leaves : Tree → List Token
  | .leaf t => [t]
  | .node _ children => leavesOfAll children

def leavesOfAll : List Tree → List Token
  | [] => []
  | t :: ts => leaves t ++ leavesOfAll ts

end

/-- The source text under a tree. -/
def text (t : Tree) : String := String.join (t.leaves.map (·.text))

/-- The bytes under a tree. -/
def range? (t : Tree) : Option Range := do
  let first ← t.leaves.head?
  let last ← t.leaves.getLast?
  return ⟨first.start, last.stop⟩

def children : Tree → List Tree
  | .leaf _ => []
  | .node _ children => children

def kind? : Tree → Option NodeKind
  | .leaf _ => none
  | .node kind _ => some kind

def isNode (kind : NodeKind) (t : Tree) : Bool := t.kind? == some kind

/-- The token of a leaf. -/
def token? : Tree → Option Token
  | .leaf t => some t
  | .node _ _ => none

/-- The children that are nodes. -/
def childNodes (t : Tree) : List Tree := t.children.filter (·.kind?.isSome)

/-- The children of one kind, in order. -/
def childrenOf (t : Tree) (kind : NodeKind) : List Tree := t.children.filter (isNode kind)

/-- The first child of a kind. -/
def child? (t : Tree) (kind : NodeKind) : Option Tree := t.children.find? (isNode kind)

/-- The tokens that are children. -/
def childTokens (t : Tree) : List Token := t.children.filterMap token?

/-- The first token of a kind among the children. -/
def childToken? (t : Tree) (kind : TokenKind) : Option Token :=
  t.childTokens.find? (·.kind == kind)

/-- The text of the first token among the children that is no trivia. -/
def word? (t : Tree) : Option String :=
  (t.childTokens.find? (!·.isTrivia)).map (·.text)

/-- A line of a tree's outline: how deep it lies, what it is and where. -/
structure Row where
  depth : Nat
  kind : Kind
  range : Range
  text : Option String

/-- The name that a node kind has among all kinds. -/
def rowKind : NodeKind → Kind
  | .junk => .token .invalid
  | kind => .construct kind

mutual

/-- The outline of a tree that begins at the byte `start`, each node before its
children, and the byte at which it ends. -/
def outline (depth start : Nat) : Tree → List Row × Nat
  | .leaf t => ([⟨depth, .token t.kind, t.range, some t.text⟩], t.stop)
  | .node kind children =>
    let (rows, stop) := outlineOfAll (depth + 1) start children
    (⟨depth, rowKind kind, ⟨start, stop⟩, none⟩ :: rows, stop)

def outlineOfAll (depth start : Nat) : List Tree → List Row × Nat
  | [] => ([], start)
  | t :: ts =>
    let (rows, middle) := outline depth start t
    let (more, stop) := outlineOfAll depth middle ts
    (rows ++ more, stop)

end

/-- The outline of a whole source text. -/
def rows (t : Tree) : List Row := (outline 0 0 t).1

end Tree

end DomainModel
