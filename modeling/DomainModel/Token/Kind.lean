/-
Kinds of tokens.

Every piece of a source text is a token of one of these kinds, white space and comments
included.  Keywords are identifiers: which ones have a meaning depends on where they
stand.  `invalid` is for characters that begin no token.
-/

namespace DomainModel

inductive TokenKind where
  | whitespace
  | lineComment
  | blockComment
  | javadoc
  | ident
  | integer
  | decimal
  | string
  | lBrace
  | rBrace
  | lBracket
  | rBracket
  | lParen
  | rParen
  | semicolon
  | colon
  | comma
  | dot
  | equals
  | atSign
  | pipe
  | question
  | minusMinus
  | invalid
  deriving DecidableEq, Repr, Inhabited

namespace TokenKind

/-- The kinds in their fixed order. -/
def all : List TokenKind :=
  [.whitespace, .lineComment, .blockComment, .javadoc, .ident, .integer, .decimal, .string,
    .lBrace, .rBrace, .lBracket, .rBracket, .lParen, .rParen, .semicolon, .colon, .comma, .dot,
    .equals, .atSign, .pipe, .question, .minusMinus, .invalid]

/-- The name a kind has in trees and messages. -/
def label : TokenKind → String
  | .whitespace => "WHITESPACE"
  | .lineComment => "LINE_COMMENT"
  | .blockComment => "BLOCK_COMMENT"
  | .javadoc => "JAVADOC"
  | .ident => "IDENT"
  | .integer => "INTEGER"
  | .decimal => "DECIMAL"
  | .string => "STRING"
  | .lBrace => "L_BRACE"
  | .rBrace => "R_BRACE"
  | .lBracket => "L_BRACKET"
  | .rBracket => "R_BRACKET"
  | .lParen => "L_PAREN"
  | .rParen => "R_PAREN"
  | .semicolon => "SEMICOLON"
  | .colon => "COLON"
  | .comma => "COMMA"
  | .dot => "DOT"
  | .equals => "EQ"
  | .atSign => "AT"
  | .pipe => "PIPE"
  | .question => "QUESTION"
  | .minusMinus => "MINUS_MINUS"
  | .invalid => "ERROR"

/-- White space and comments, which a reader of tokens skips. -/
def isTrivia : TokenKind → Bool
  | .whitespace | .lineComment | .blockComment => true
  | _ => false

def isLiteral : TokenKind → Bool
  | .ident | .integer | .decimal | .string => true
  | _ => false

def isPunctuation : TokenKind → Bool
  | .lBrace | .rBrace | .lBracket | .rBracket | .lParen | .rParen | .semicolon | .colon
  | .comma | .dot | .equals | .atSign | .pipe | .question | .minusMinus => true
  | _ => false

end TokenKind

end DomainModel
