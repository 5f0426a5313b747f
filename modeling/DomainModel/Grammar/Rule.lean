/-
Rules and how they are read.

A grammar is data: a `Rule` says which tokens to take, which nodes to put around them and
what to report where something is missing.  `Rule.read` is the one reader of all rules.
It turns the tokens that are left into finished trees, complaints and the tokens that are
left after that.  No token is lost on the way: the leaves of the trees followed by the
rest are the tokens it was given, whatever the rule.

Trivia is taken with the token that follows it, but a node opens behind the trivia, so a
node begins at its first proper token.

A rule may refer to a nonterminal, which is how blocks inside blocks are read.  The reader
carries a bound on how deep it may go.  A nonterminal is entered only after a token has
been taken, so the number of tokens is bound enough.
-/
import DomainModel.Grammar.Test
import DomainModel.Tree.Basic

namespace DomainModel

/-- What should have stood where something else does. -/
inductive Expectation where
  | token (kind : TokenKind)
  | keyword (word : String)
  | name
  | declaration
  | configOption
  | api
  | apiType
  | apiConfigOption
  | plugin
  | pluginOption
  | policy
  | tableName
  | field
  | fieldType
  | initialValue
  | enumValue
  | relationship
  | aggregateRoot
  | method
  | value
  deriving DecidableEq, Repr

def Expectation.message : Expectation → String
  | token kind => "expected " ++ kind.label
  | keyword word => "expected '" ++ word ++ "'"
  | name => "expected a name"
  | declaration => "expected a declaration"
  | configOption => "expected a config option"
  | api => "expected an api"
  | apiType => "expected api type"
  | apiConfigOption => "expected an api config option"
  | plugin => "expected a plugin"
  | pluginOption => "expected a plugin option"
  | policy => "expected a policy"
  | tableName => "expected a table name"
  | field => "expected a field"
  | fieldType => "expected a field type"
  | initialValue => "expected an initial value"
  | enumValue => "expected an enum value"
  | relationship => "expected a relationship"
  | aggregateRoot => "expected an aggregate root"
  | method => "expected a method"
  | value => "expected a value"

/-- A complaint: what was expected, and the token that stands there, if the text does not
end. -/
structure Complaint where
  expected : Expectation
  found : Option Token
  deriving DecidableEq, Repr

namespace Grammar

/-- What reading produces: the trees, the complaints and the tokens left. -/
structure Reading where
  trees : List Tree
  complaints : List Complaint
  rest : List Token

/-- Reads on from where a reading stopped. -/
def Reading.andThen (r : Reading) (more : List Token → Reading) : Reading :=
  let s := more r.rest
  ⟨r.trees ++ s.trees, r.complaints ++ s.complaints, s.rest⟩

/-- Blocks that may contain themselves. -/
inductive Nonterminal where
  | field
  | value
  deriving DecidableEq, Repr

inductive Rule where
  /-- Reads nothing. -/
  | nothing
  /-- Takes the next token. -/
  | take
  /-- Takes the trivia in front of the next token. -/
  | trivia
  /-- Complains that something is missing. -/
  | missing (what : Expectation)
  | seq (first second : Rule)
  | ifThen (test : Test) (yes no : Rule)
  | whileDo (test : Test) (body : Rule)
  /-- Puts a node around what the body takes. -/
  | node (kind : NodeKind) (body : Rule)
  /-- Reads `lead`, then looks for one of the keywords.  It decides on the kind of the
  node around lead and body; with neither a keyword nor a kind for all other cases there
  is no node. -/
  | headed (lead : Rule) (keywords : List (String × NodeKind)) (otherwise : Option NodeKind)
      (body : NodeKind → Rule)
  | call (block : Nonterminal)

instance : Append Rule := ⟨Rule.seq⟩

/-- Reads nothing. -/
def Reading.stop (ts : List Token) : Reading := ⟨[], [], ts⟩

/-- Takes the pending trivia. -/
def Reading.trivia (ts : List Token) : Reading :=
  ⟨(pendingTrivia ts).map .leaf, [], afterTrivia ts⟩

/-- Takes the pending trivia and the token behind it. -/
def Reading.take (ts : List Token) : Reading :=
  ⟨(pendingTrivia ts ++ (afterTrivia ts).take 1).map .leaf, [], (afterTrivia ts).drop 1⟩

/-- Repeats a step while the test holds, `bound` times at most. -/
def repeatWhile (test : Test) (step : List Token → Reading) : Nat → List Token → Reading
  | 0, ts => .stop ts
  | bound + 1, ts =>
    if test.holds ts then (step ts).andThen (repeatWhile test step bound) else .stop ts

/-- The node kind that the keywords assign to the next token. -/
def headKind (keywords : List (String × NodeKind)) (otherwise : Option NodeKind)
    (ts : List Token) : Option NodeKind :=
  match (ahead? ts 0).bind fun t => keywords.find? fun k => t.isWord k.1 with
  | some (_, kind) => some kind
  | none => otherwise

/-- Reads a rule, where `enter` reads the nonterminals. -/
def Rule.read (enter : Nonterminal → List Token → Reading) : Rule → List Token → Reading
  | nothing, ts => .stop ts
  | take, ts => .take ts
  | trivia, ts => .trivia ts
  | missing what, ts => ⟨[], [⟨what, ahead? ts 0⟩], ts⟩
  | seq first second, ts => (first.read enter ts).andThen (second.read enter)
  | ifThen test yes no, ts => if test.holds ts then yes.read enter ts else no.read enter ts
  | whileDo test body, ts => repeatWhile test (body.read enter) ts.length ts
  | node kind body, ts =>
    (Reading.trivia ts).andThen fun ts =>
      let inner := body.read enter ts
      ⟨[.node kind inner.trees], inner.complaints, inner.rest⟩
  | headed lead keywords otherwise body, ts =>
    (Reading.trivia ts).andThen fun ts =>
      let opening := lead.read enter ts
      match headKind keywords otherwise opening.rest with
      | none => opening
      | some kind =>
        let inner := opening.andThen ((body kind).read enter)
        ⟨[.node kind inner.trees], inner.complaints, inner.rest⟩
  | call block, ts => enter block ts

/-- Reads nonterminals by their rules, going at most `depth` deep. -/
def enter (rules : Nonterminal → Rule) : Nat → Nonterminal → List Token → Reading
  | 0, _, ts => .stop ts
  | depth + 1, block, ts => (rules block).read (enter rules depth) ts

namespace Rule

/-- Takes the next token if it is of this kind. -/
def accept (k : TokenKind) : Rule := ifThen (.next k) take nothing

/-- Takes the next token, which has to be of this kind. -/
def expect (k : TokenKind) : Rule := ifThen (.next k) take (missing (.token k))

/-- Takes the next token, which has to be this word. -/
def expectWord (w : String) : Rule := ifThen (.nextWord w) take (missing (.keyword w))

/-- A node around the next token. -/
def single (kind : NodeKind) : Rule := node kind take

/-- A node around an identifier, which has to be there. -/
def identifier (kind : NodeKind) (what : Expectation) : Rule :=
  ifThen (.next .ident) (single kind) (missing what)

/-- Complains and sets the next token aside. -/
def junk (what : Expectation) : Rule :=
  missing what ++ ifThen (.ends 0) nothing (single .junk)

/-- Reads items up to the closing token. -/
def items (close : TokenKind) (item : Rule) : Rule := whileDo (.notYet close) item

end Rule

end Grammar

end DomainModel
