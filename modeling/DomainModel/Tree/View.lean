/-
What a construct says.

Each question that can be put to a tree node has a function here: what it is called, of
what type it is, which comment describes it.  A piece that the source leaves out is
`none`, so every question can be put to every tree, complete or not.
-/
import DomainModel.Tree.Basic
import DomainModel.Text.DocComment

namespace DomainModel.Tree

/-- The word inside a child of this kind. -/
def childWord? (t : Tree) (kind : NodeKind) : Option String := (t.child? kind).bind word?

/-- The name of a construct. -/
def name? (t : Tree) : Option String := t.childWord? .name

/-- The name, or nothing between quotes. -/
def nameOrEmpty (t : Tree) : String := t.name?.getD ""

/-- The token of a doc comment in front. -/
def javadoc? (t : Tree) : Option Token := t.childToken? .javadoc

/-- The token of a doc comment that ends the line. -/
def suffixJavadoc? (t : Tree) : Option Token :=
  (t.child? .suffixJavadoc).bind (·.childToken? .javadoc)

/-- The doc comment in front, or else the one behind. -/
def anyJavadoc? (t : Tree) : Option Token := t.javadoc? <|> t.suffixJavadoc?

def docOf (comment : Option Token) : Option String :=
  comment.map fun c => String.ofList (Text.docText c.text.toList)

def annotations (t : Tree) : List Tree := t.childrenOf .annotationNode

/-- The identifier among the tokens of a node: the name of an annotation or of a check,
or a type. -/
def identifier? (t : Tree) : Option String := (t.childToken? .ident).map (·.text)

/-- Is the type followed by brackets? -/
def hasBrackets (t : Tree) : Bool := (t.childToken? .lBracket).isSome

/-- Is the type followed by a question mark? -/
def hasQuestion (t : Tree) : Bool := (t.childToken? .question).isSome

/-- The tokens behind the first of a kind. -/
def tokensBehind (kind : TokenKind) (ts : List Token) : Option (List Token) :=
  match ts.dropWhile (·.kind != kind) with
  | [] => none
  | _ :: rest => some rest

/-- The text between the parentheses of a check, up to the first closing one. -/
def argument? (t : Tree) : Option String :=
  (tokensBehind .lParen t.childTokens).map fun inside =>
    let texts := (inside.takeWhile (·.kind != .rParen)).map fun t => t.text.toList
    String.ofList (Text.trim texts.flatten)

def validations (t : Tree) : List Tree := t.childrenOf .validation

/-- The fields of a block. -/
def fields (t : Tree) : List Tree := t.childrenOf .field

/-- The names of the aggregates a service is for. -/
def aggregateNames (t : Tree) : List String :=
  match t.child? .serviceAggregates with
  | none => []
  | some list => (list.childrenOf .name).filterMap word?

/-- The name of what a relationship's end puts into the entity there. -/
def injectedName? (t : Tree) : Option String := (t.child? .relationshipField).bind name?

/-- The description in parentheses behind that name. -/
def injectedDescription? (t : Tree) : Option String :=
  ((t.child? .relationshipField).bind (·.child? .relationshipDescription)).bind name?

/-- The checks on what a relationship's end injects. -/
def injectedValidations (t : Tree) : List Tree :=
  match t.child? .relationshipField with
  | none => []
  | some field => field.validations

/-- An entry of a `withEvents` list. -/
inductive EventEntry where
  | single (node : Tree)
  | group (node : Tree) (alternatives : List Tree)

def EventEntry.node : EventEntry → Tree
  | single node => node
  | group node _ => node

/-- The entries of a `withEvents` list, in order. -/
def eventEntries (t : Tree) : List EventEntry :=
  t.children.filterMap fun child =>
    match child with
    | .node .eventRef _ => some (.single child)
    | .node .eventGroup _ => some (.group child (child.childrenOf .eventRef))
    | _ => none

/-- The token of a literal. -/
def literalToken? (t : Tree) : Option Token := t.childTokens.find? (·.kind.isLiteral)

/-- The first child that is a literal. -/
def literal? (t : Tree) : Option Tree := t.child? .literal

/-- The token of a literal as it is written. -/
def literalSource (t : Tree) : String := (t.literalToken?.map (·.text)).getD ""

end DomainModel.Tree
