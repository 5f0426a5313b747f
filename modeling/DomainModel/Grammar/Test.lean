/-
Looking ahead.

The grammar is predictive: what to read next is decided by a `Test` on the tokens that
are left, and a test sees through white space and comments.  Only two tests look at the
trivia itself, and only for its line breaks, because whether a doc comment belongs to
what precedes it, to what follows it or to the whole text depends on the lines between.
-/
import DomainModel.Token.Basic

namespace DomainModel.Grammar

/-- The `n`-th token ahead, trivia not counted. -/
def ahead? : List Token → Nat → Option Token
  | [], _ => none
  | t :: ts, n =>
    if t.isTrivia then ahead? ts n
    else match n with
      | 0 => some t
      | n + 1 => ahead? ts n

/-- The trivia in front of the next token. -/
def pendingTrivia (ts : List Token) : List Token := ts.takeWhile Token.isTrivia

/-- The tokens from the next one that is no trivia. -/
def afterTrivia (ts : List Token) : List Token := ts.dropWhile Token.isTrivia

/-- How many line feeds some tokens hold. -/
def lineBreaks (ts : List Token) : Nat := (ts.flatMap fun t => t.text.toList).count '\n'

/-- A question about the tokens ahead. -/
inductive Test where
  /-- Is the `n`-th token of one of these kinds? -/
  | kind (n : Nat) (kinds : List TokenKind)
  /-- Is the `n`-th token an identifier spelled like one of these? -/
  | word (n : Nat) (words : List String)
  /-- Are there no more than `n` tokens? -/
  | ends (n : Nat)
  /-- Does the next token stand on the line of the one before it? -/
  | sameLine
  /-- Are there at least `n` line breaks behind the next token? -/
  | breaksBehind (n : Nat)
  | negation (test : Test)
  | both (first second : Test)
  | either (first second : Test)

namespace Test

def holds (ts : List Token) : Test → Bool
  | kind n kinds => (ahead? ts n).any fun t => kinds.contains t.kind
  | word n words => (ahead? ts n).any fun t => words.any t.isWord
  | ends n => (ahead? ts n).isNone
  | sameLine => lineBreaks (pendingTrivia ts) == 0
  | breaksBehind n => n ≤ lineBreaks (pendingTrivia ((afterTrivia ts).drop 1))
  | negation test => !holds ts test
  | both first second => holds ts first && holds ts second
  | either first second => holds ts first || holds ts second

/-- The next token is of this kind. -/
def next (k : TokenKind) : Test := kind 0 [k]

/-- The token after the next is of this kind. -/
def second (k : TokenKind) : Test := kind 1 [k]

/-- The next token is this word. -/
def nextWord (w : String) : Test := word 0 [w]

/-- There is a token left, and it is not of this kind. -/
def notYet (k : TokenKind) : Test := both (negation (next k)) (negation (ends 0))

/-- The next token may stand for a simple value. -/
def simple : Test := kind 0 [.ident, .string, .integer, .decimal]

end Test

end DomainModel.Grammar
