/-
Tokens.

A token remembers its text and the byte at which it starts, so a run of tokens can be
put back together into the text it was cut from.

Not covered: the byte has no bound, so texts of 4 GiB and more, whose offsets do not fit into
32 bits, have tokens here like any other.
-/
import DomainModel.Token.Kind
import DomainModel.Source.Lines

namespace DomainModel

structure Token where
  kind : TokenKind
  text : String
  start : Nat
  deriving DecidableEq, Repr, Inhabited

namespace Token

/-- The byte after the last one. -/
def stop (t : Token) : Nat := t.start + t.text.utf8ByteSize

def range (t : Token) : Range := ⟨t.start, t.stop⟩

def isTrivia (t : Token) : Bool := t.kind.isTrivia

/-- Is the token an identifier spelled `word`? -/
def isWord (t : Token) (word : String) : Bool := t.kind == .ident && t.text == word

end Token

end DomainModel
